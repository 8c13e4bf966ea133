/-
  Crabbit.Aarch64.AddressSemantics

  What the processor does with the words that materialise an address relative
  to the program counter: `adr`, and `add` and `sub` of a 12-bit immediate that
  may be shifted.

  The encoder represents every displacement it accepts but the lowest one:
  the magnitude of `-2 ^ 24` has a bit too many for the two immediates.
-/

import Crabbit.Aarch64.EncodeLayout
import Mathlib.Logic.Function.Basic

namespace Crabbit.Aarch64

open Crabbit.Lib

/-! ## The architecture -/

/-- The program counter and the general-purpose registers; 31 stands for the
    stack pointer. -/
structure AddressState where
  pc : BitVec 64
  regs : Nat → BitVec 64

inductive AddressInst where
  | adr (rd : Nat) (offset : Int)
  | add (rd rn imm : Nat)
  | sub (rd rn imm : Nat)
  deriving DecidableEq

/-- `ADR`: bit 31 clear, 10000 in bits 28..24, the offset in bits 23..5 and
    30..29. -/
def decodeAdr (word : Nat) : Option AddressInst :=
  if word / 2 ^ 31 = 0 ∧ word / 2 ^ 24 % 32 = 0x10 then
    some (.adr (word % 32) (toSigned 21 (4 * (word / 32 % 2 ^ 19) + word / 2 ^ 29 % 4)))
  else none

/-- `ADD` and `SUB` of an immediate to an X register: 100010 in bits 28..23, the
    immediate in bits 21..10, shifted by 12 when bit 22 is set. -/
def decodeAddSub (word : Nat) : Option AddressInst :=
  if word / 2 ^ 23 % 64 = 0x22 then
    let imm := word / 2 ^ 10 % 2 ^ 12 * 2 ^ (12 * (word / 2 ^ 22 % 2))
    if word / 2 ^ 29 = 4 then some (.add (word % 32) (word / 32 % 32) imm)
    else if word / 2 ^ 29 = 6 then some (.sub (word % 32) (word / 32 % 32) imm)
    else none
  else none

def decodeAddress (word : Nat) : Option AddressInst := (decodeAdr word).or (decodeAddSub word)

/-- What an instruction leaves in its destination. -/
def AddressInst.value (s : AddressState) : AddressInst → BitVec 64
  | .adr _ offset => s.pc + BitVec.ofInt 64 offset
  | .add _ rn imm => s.regs rn + BitVec.ofNat 64 imm
  | .sub _ rn imm => s.regs rn - BitVec.ofNat 64 imm

/-- The destination; `adr` has no stack pointer. -/
def AddressInst.dest : AddressInst → Option Nat
  | .adr rd _ => if rd = 31 then none else some rd
  | .add rd _ _ | .sub rd _ _ => some rd

def AddressInst.exec (inst : AddressInst) (s : AddressState) : AddressState where
  pc := s.pc + 4
  regs := match inst.dest with
    | some rd => Function.update s.regs rd (inst.value s)
    | none => s.regs

/-- Run `n` words of a text that is loaded at `base`. -/
def runWords (base : BitVec 64) (text : List UInt8) : Nat → AddressState → Option AddressState
  | 0, s => some s
  | n + 1, s => do
    let word ← wordAt text (s.pc - base).toNat
    let inst ← decodeAddress word
    runWords base text n (inst.exec s)

/-- Wherever the three words are loaded, running them leaves the address at the
    displacement in the register, and nothing else changes. -/
def Materializes (rd : Nat) (delta : Int) (text : List UInt8) : Prop :=
  ∀ s : AddressState, runWords s.pc text 3 s =
    some ⟨s.pc + 12, Function.update s.regs rd (s.pc + BitVec.ofInt 64 delta)⟩

/-! ## Reading the words back -/

theorem decodeAddress_adr {rd : Nat} (hrd : rd < 32) :
    0x10000000 ||| rd < 2 ^ 32 ∧ decodeAddress (0x10000000 ||| rd) = some (.adr rd 0) := by
  rw [or_eq_add (k := 5) (by decide) hrd]
  refine ⟨by omega, ?_⟩
  have hhigh : (0x10000000 + rd) / 2 ^ 31 = 0 ∧ (0x10000000 + rd) / 2 ^ 24 % 32 = 0x10 := by omega
  have hlow : (0x10000000 + rd) % 32 = rd := by omega
  have himm : 4 * ((0x10000000 + rd) / 32 % 2 ^ 19) + (0x10000000 + rd) / 2 ^ 29 % 4 = 0 := by
    omega
  rw [decodeAddress, decodeAdr, if_pos hhigh, hlow, himm]
  rfl

/-- A word of a base, an immediate and two registers. -/
theorem immediate_fields {base imm rd : Nat} (hbase : 2 ^ 22 ∣ base) (himm : imm < 2 ^ 12)
    (hrd : rd < 32) :
    base ||| imm <<< 10 ||| rd <<< 5 ||| rd = base + (2 ^ 10 * imm + (32 * rd + rd)) := by
  have hregs : rd <<< 5 ||| rd = 32 * rd + rd := by
    rw [Nat.shiftLeft_eq, Nat.mul_comm]
    exact or_eq_add (k := 5) (Nat.dvd_mul_right _ _) hrd
  have hfields : imm <<< 10 ||| (32 * rd + rd) = 2 ^ 10 * imm + (32 * rd + rd) := by
    rw [Nat.shiftLeft_eq, Nat.mul_comm]
    exact or_eq_add (k := 10) (Nat.dvd_mul_right _ _) (by omega)
  rw [Nat.or_assoc, Nat.or_assoc, hregs, hfields]
  exact or_eq_add hbase (by omega)

/-- The word of an addition or a subtraction of zero. -/
def immediateBase : Bool → Bool → Nat
  | false, false => 0x91000000
  | false, true => 0x91400000
  | true, false => 0xd1000000
  | true, true => 0xd1400000

theorem decodeAddress_immediate (negative shifted : Bool) {imm rd : Nat} (himm : imm < 2 ^ 12)
    (hrd : rd < 32) :
    immediateBase negative shifted ||| imm <<< 10 ||| rd <<< 5 ||| rd < 2 ^ 32 ∧
      decodeAddress (immediateBase negative shifted ||| imm <<< 10 ||| rd <<< 5 ||| rd) =
        some ((if negative then AddressInst.sub else .add) rd rd
          (imm * 2 ^ (12 * shifted.toNat))) := by
  have hbase : 2 ^ 22 ∣ immediateBase negative shifted := by
    cases negative <;> cases shifted <;> decide
  rw [immediate_fields hbase himm hrd]
  obtain ⟨j, hj⟩ := hbase
  generalize hword : immediateBase negative shifted + (2 ^ 10 * imm + (32 * rd + rd)) = word
  rw [hj] at hword
  -- The word from bit 5, from bit 10 and from bit 22 on.
  have h5 : word / 32 = 32 * (2 ^ 12 * j + imm) + rd := by
    have hsplit : word = 32 * (32 * (2 ^ 12 * j + imm) + rd) + rd := by omega
    omega
  have h10 : word / 2 ^ 10 = 2 ^ 12 * j + imm := by omega
  have h22 : word / 2 ^ 22 = j := by omega
  have hlow : word % 32 = rd ∧ word / 32 % 32 = rd := by omega
  have hfield : word / 2 ^ 10 % 2 ^ 12 = imm := by omega
  have hparts : j % 2 = shifted.toNat ∧ j / 2 % 64 = 0x22 ∧
      j / 2 ^ 7 = if negative then 6 else 4 := by
    cases negative <;> cases shifted <;> simp only [immediateBase] at hj <;> simp <;> omega
  obtain ⟨hshift, hkind, hop⟩ := hparts
  have hshift : word / 2 ^ 22 % 2 = shifted.toNat := h22 ▸ hshift
  have h23 : word / 2 ^ 23 = j / 2 := by omega
  have h29 : word / 2 ^ 29 = j / 2 ^ 7 := by omega
  rw [← h23] at hkind
  rw [← h29] at hop
  have hadr : ¬ (word / 2 ^ 31 = 0 ∧ word / 2 ^ 24 % 32 = 0x10) := by
    cases negative <;> simp at hop <;> omega
  refine ⟨by cases negative <;> simp at hop <;> omega, ?_⟩
  rw [decodeAddress, decodeAdr, if_neg hadr, decodeAddSub, if_pos hkind, hfield, hshift, hlow.1,
    hlow.2, hop]
  cases negative <;> rfl

/-! ## Running the words -/

theorem wordAt_of_append (before after : List UInt8) {word pc : Nat} (hpc : pc = before.length)
    (hword : word < 2 ^ 32) : wordAt (before ++ toLE 4 word ++ after) pc = some word := by
  have hslice := sliceAt_append before (toLE 4 word) after
  rw [length_toLE] at hslice
  rw [wordAt, hpc, hslice]
  exact congrArg some (ofLE_toLE_of_lt hword)

/-- Three words in a row. -/
theorem runWords_three {w₀ w₁ w₂ : Nat} {i₀ i₁ i₂ : AddressInst}
    (h₀ : w₀ < 2 ^ 32 ∧ decodeAddress w₀ = some i₀) (h₁ : w₁ < 2 ^ 32 ∧ decodeAddress w₁ = some i₁)
    (h₂ : w₂ < 2 ^ 32 ∧ decodeAddress w₂ = some i₂) (s : AddressState) :
    runWords s.pc (toLE 4 w₀ ++ toLE 4 w₁ ++ toLE 4 w₂) 3 s =
      some (i₂.exec (i₁.exec (i₀.exec s))) := by
  have hpc₀ : (s.pc - s.pc).toNat = 0 := by rw [BitVec.sub_self]; rfl
  have hpc₁ : ((i₀.exec s).pc - s.pc).toNat = 4 := by
    show (s.pc + 4 - s.pc).toNat = 4
    bv_omega
  have hpc₂ : ((i₁.exec (i₀.exec s)).pc - s.pc).toNat = 8 := by
    show (s.pc + 4 + 4 - s.pc).toNat = 8
    bv_omega
  have hword₀ : wordAt (toLE 4 w₀ ++ toLE 4 w₁ ++ toLE 4 w₂) 0 = some w₀ := by
    rw [List.append_assoc]
    exact wordAt_of_append [] _ rfl h₀.1
  have hword₁ : wordAt (toLE 4 w₀ ++ toLE 4 w₁ ++ toLE 4 w₂) 4 = some w₁ :=
    wordAt_of_append _ _ (length_toLE 4 w₀).symm h₁.1
  have hword₂ : wordAt (toLE 4 w₀ ++ toLE 4 w₁ ++ toLE 4 w₂) 8 = some w₂ := by
    have h := wordAt_of_append (toLE 4 w₀ ++ toLE 4 w₁) []
      (by rw [List.length_append, length_toLE, length_toLE] : 8 = _) h₂.1
    rwa [List.append_nil] at h
  simp only [runWords, hpc₀, hpc₁, hpc₂, hword₀, hword₁, hword₂, h₀.2, h₁.2, h₂.2,
    Option.bind_eq_bind, Option.bind_some]

/-- The three words of an accepted displacement, by the fields of its
    magnitude. -/
theorem encodePcRelativeAddress_bytes {rd : Nat} {delta : Int} {e : BinaryEncoding}
    (h : encodePcRelativeAddress rd delta = .ok e) :
    ∃ negative : Bool, (negative = true ↔ delta < 0) ∧
      ∃ lo hi, lo < 2 ^ 12 ∧ hi < 2 ^ 12 ∧ lo + hi * 2 ^ 12 = delta.natAbs % 2 ^ 24 ∧
        e.bytes = toLE 4 (0x10000000 ||| rd) ++
          toLE 4 (immediateBase negative false ||| lo <<< 10 ||| rd <<< 5 ||| rd) ++
          toLE 4 (immediateBase negative true ||| hi <<< 10 ||| rd <<< 5 ||| rd) := by
  have hmask : ∀ n : Nat, n &&& 0xfff = n % 2 ^ 12 := fun n =>
    Nat.and_two_pow_sub_one_eq_mod n 12
  rw [encodePcRelativeAddress] at h
  split at h
  case isFalse => cases h
  have hbytes := congrArg BinaryEncoding.bytes (Except.ok.inj h)
  rw [hmask, hmask, Nat.shiftRight_eq_div_pow] at hbytes
  refine ⟨decide (delta < 0), decide_eq_true_iff, delta.natAbs % 2 ^ 12,
    delta.natAbs / 2 ^ 12 % 2 ^ 12, Nat.mod_lt _ (by decide), Nat.mod_lt _ (by decide), ?_,
    hbytes.symm.trans ?_⟩
  · omega
  · by_cases hneg : delta < 0
    · rw [if_pos hneg, decide_eq_true hneg]
      rfl
    · rw [if_neg hneg, decide_eq_false hneg]
      rfl

theorem exec_adr {rd : Nat} (hrd : rd < 31) (s : AddressState) :
    (AddressInst.adr rd 0).exec s = ⟨s.pc + 4, Function.update s.regs rd s.pc⟩ := by
  have hdest : (AddressInst.adr rd 0).dest = some rd := if_neg (by omega)
  have hvalue : (AddressInst.adr rd 0).value s = s.pc := BitVec.add_zero _
  rw [AddressInst.exec, hdest, hvalue]

/-- Running the three words: the `adr` takes the program counter, the other two
    add or subtract their immediates. -/
theorem exec_materialize (negative : Bool) {rd : Nat} (lo hi : Nat) (hrd : rd < 31)
    (s : AddressState) :
    ((if negative then AddressInst.sub else .add) rd rd (hi * 2 ^ (12 * true.toNat))).exec
      (((if negative then AddressInst.sub else .add) rd rd (lo * 2 ^ (12 * false.toNat))).exec
        ((AddressInst.adr rd 0).exec s)) =
      ⟨s.pc + 12, Function.update s.regs rd
        (if negative then s.pc - BitVec.ofNat 64 (lo + hi * 2 ^ 12)
          else s.pc + BitVec.ofNat 64 (lo + hi * 2 ^ 12))⟩ := by
  have hpc : s.pc + 4 + 4 + 4 = s.pc + 12 := by
    rw [BitVec.add_assoc, BitVec.add_assoc]
    rfl
  have hlo : lo * 2 ^ (12 * false.toNat) = lo := Nat.mul_one lo
  have hhi : hi * 2 ^ (12 * true.toNat) = hi * 2 ^ 12 := rfl
  rw [exec_adr hrd, hlo, hhi, BitVec.ofNat_add]
  cases negative with
  | true =>
    simp only [AddressInst.exec, AddressInst.dest, AddressInst.value, hpc, if_true,
      Function.update_self, Function.update_idem]
    rw [BitVec.sub_sub]
  | false =>
    simp only [AddressInst.exec, AddressInst.dest, AddressInst.value, hpc, Bool.false_eq_true,
      if_false, Function.update_self, Function.update_idem]
    rw [BitVec.add_assoc]

/-- The words leave the program counter plus or minus what the immediates hold
    of the magnitude. -/
theorem runWords_materialize {rd : Nat} {delta : Int} {e : BinaryEncoding} (hrd : rd < 31)
    (h : encodePcRelativeAddress rd delta = .ok e) (s : AddressState) :
    runWords s.pc e.bytes 3 s = some ⟨s.pc + 12, Function.update s.regs rd
      (if delta < 0 then s.pc - BitVec.ofNat 64 (delta.natAbs % 2 ^ 24)
        else s.pc + BitVec.ofNat 64 (delta.natAbs % 2 ^ 24))⟩ := by
  obtain ⟨negative, hneg, lo, hi, hlo, hhi, hsum, hbytes⟩ := encodePcRelativeAddress_bytes h
  have hrd' : rd < 32 := by omega
  rw [hbytes, runWords_three (decodeAddress_adr hrd') (decodeAddress_immediate _ false hlo hrd')
    (decodeAddress_immediate _ true hhi hrd'), exec_materialize negative lo hi hrd s, hsum]
  simp only [hneg]

/-! ## The range -/

/-- What the encoder promises for a displacement: it accepts the 16 MiB to
    either side, and what it accepts is materialised. -/
def AddressExact (rd : Nat) (delta : Int) : Prop :=
  (-2 ^ 24 ≤ delta ∧ delta < 2 ^ 24 → ∃ e, encodePcRelativeAddress rd delta = .ok e) ∧
    ∀ e, encodePcRelativeAddress rd delta = .ok e → Materializes rd delta e.bytes

theorem encodePcRelativeAddress_eq_ok (rd : Nat) (delta : Int) :
    (∃ e, encodePcRelativeAddress rd delta = .ok e) ↔ -2 ^ 24 ≤ delta ∧ delta < 2 ^ 24 := by
  rw [encodePcRelativeAddress]
  constructor
  · rintro ⟨e, h⟩
    split at h
    · assumption
    · cases h
  · intro h
    rw [if_pos h]
    exact ⟨_, rfl⟩

/-- Adding the magnitude, or taking it away, is adding the displacement. -/
theorem add_natAbs (pc : BitVec 64) (delta : Int) :
    (if delta < 0 then pc - BitVec.ofNat 64 delta.natAbs else pc + BitVec.ofNat 64 delta.natAbs) =
      pc + BitVec.ofInt 64 delta := by
  have hnat : ∀ n : Nat, BitVec.ofInt 64 (n : Int) = BitVec.ofNat 64 n := fun n =>
    BitVec.ofInt_natCast 64 n
  split
  · next hneg =>
    have hdelta : delta = -(delta.natAbs : Int) := by omega
    rw [hdelta, BitVec.ofInt_neg, hnat, Int.natAbs_neg, Int.natAbs_natCast, BitVec.sub_eq_add_neg]
  · next hneg =>
    have hdelta : delta = (delta.natAbs : Int) := by omega
    rw [hdelta, hnat, Int.natAbs_natCast]

/-- The words of the lowest displacement leave the program counter itself: at
    address 0 the register gets 0. -/
theorem not_materializes_lowest {rd : Nat} {e : BinaryEncoding} (hrd : rd < 31)
    (he : encodePcRelativeAddress rd (-2 ^ 24) = .ok e) :
    ¬ Materializes rd (-2 ^ 24) e.bytes := by
  intro h
  have hrun := (h ⟨0, fun _ => 0⟩).symm.trans (runWords_materialize hrd he ⟨0, fun _ => 0⟩)
  have hregs := congrArg (fun s : AddressState => s.regs rd) (Option.some.inj hrun)
  simp only [Function.update_self] at hregs
  exact absurd hregs (by decide)

/-- The encoder keeps its promise for every displacement but the lowest one it
    accepts. -/
theorem addressExact_iff (rd : Fin 31) (delta : Int) : AddressExact rd delta ↔ delta ≠ -2 ^ 24 := by
  have haccepts := encodePcRelativeAddress_eq_ok rd delta
  constructor
  · rintro ⟨-, h⟩ rfl
    obtain ⟨e, he⟩ := haccepts.mpr (by decide)
    exact not_materializes_lowest rd.isLt he (h e he)
  · refine fun hne => ⟨haccepts.mpr, fun e he s => ?_⟩
    have hrange := haccepts.mp ⟨e, he⟩
    have hmagnitude : delta.natAbs % 2 ^ 24 = delta.natAbs := Nat.mod_eq_of_lt (by omega)
    rw [runWords_materialize rd.isLt he s, hmagnitude, add_natAbs]

/-- 16 MiB below is accepted and not materialised. -/
theorem addressExact_lowest : ¬ ∀ (rd : Fin 31) (delta : Int), AddressExact rd delta := by
  intro h
  obtain ⟨hok, hexact⟩ := h 0 (-2 ^ 24)
  obtain ⟨e, he⟩ := hok (by decide)
  exact not_materializes_lowest (by decide : 0 < 31) he (hexact e he)

end Crabbit.Aarch64
