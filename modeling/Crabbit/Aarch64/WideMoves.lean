/-
  Crabbit.Aarch64.WideMoves

  What the processor does with the words of wide moves, and with those the
  encoder makes of a materialised constant.

  A constant is left in its register whatever was there before: the first move
  clears the chunks that the others leave alone.
-/

import Crabbit.Aarch64.Encoding
import Crabbit.Aarch64.WordMachine

namespace Crabbit.Aarch64

open Crabbit.Lib

/-! ## The architecture -/

inductive WideMoveKind where
  | movn | movz | movk
  deriving DecidableEq

structure WideMove where
  kind : WideMoveKind
  rd : Nat
  imm : Nat
  shift : Nat
  deriving DecidableEq

/-- A wide move of an X register: 100101 in bits 28..23, the kind in bits 30..29,
    the shift in bits 22..21 and the immediate in bits 20..5. -/
def decodeWideMove (word : Nat) : Option WideMove :=
  if word / 2 ^ 31 = 1 ∧ word / 2 ^ 23 % 64 = 0x25 then
    let fields (kind : WideMoveKind) : WideMove :=
      ⟨kind, word % 32, word / 32 % 2 ^ 16, 16 * (word / 2 ^ 21 % 4)⟩
    match word / 2 ^ 29 % 4 with
    | 0 => some (fields .movn)
    | 2 => some (fields .movz)
    | 3 => some (fields .movk)
    | _ => none
  else none

/-- What a wide move leaves in a register that holds `old`. -/
def WideMove.value (inst : WideMove) (old : BitVec 64) : BitVec 64 :=
  match inst.kind with
  | .movn => ~~~ insertChunk 0 inst.imm inst.shift
  | .movz => insertChunk 0 inst.imm inst.shift
  | .movk => insertChunk old inst.imm inst.shift

/-- Register 31 is the zero register here. -/
def WideMove.exec (inst : WideMove) (regs : Nat → BitVec 64) : Nat → BitVec 64 :=
  if inst.rd = 31 then regs
  else Function.update regs inst.rd (inst.value (regs inst.rd))

/-- Run the words of wide moves. -/
def runWideMoves : List Nat → (Nat → BitVec 64) → Option (Nat → BitVec 64)
  | [], regs => some regs
  | word :: words, regs => (decodeWideMove word).bind fun inst => runWideMoves words (inst.exec regs)

/-! ## The encoder's words -/

/-- A word of four fields. -/
theorem wideMove_fields {base hw imm rd : Nat} (hbase : 2 ^ 23 ∣ base) (hhw : hw < 4)
    (himm : imm < 2 ^ 16) (hrd : rd < 32) :
    base ||| hw <<< 21 ||| imm <<< 5 ||| rd = base + (2 ^ 21 * hw + (32 * imm + rd)) := by
  have hlow : imm <<< 5 ||| rd = 32 * imm + rd := by
    rw [Nat.shiftLeft_eq, Nat.mul_comm]
    exact or_eq_add (k := 5) (Nat.dvd_mul_right _ _) hrd
  have hfields : hw <<< 21 ||| (32 * imm + rd) = 2 ^ 21 * hw + (32 * imm + rd) := by
    rw [Nat.shiftLeft_eq, Nat.mul_comm]
    exact or_eq_add (k := 21) (Nat.dvd_mul_right _ _) (by omega)
  rw [Nat.or_assoc, Nat.or_assoc, hlow, hfields]
  exact or_eq_add hbase (by omega)

/-- The word of a kind with all its other fields zero. -/
def wideMoveBase : WideMoveKind → Nat
  | .movn => 0x92800000
  | .movz => 0xd2800000
  | .movk => 0xf2800000

theorem decodeWideMove_word (kind : WideMoveKind) {hw imm rd : Nat} (hhw : hw < 4)
    (himm : imm < 2 ^ 16) (hrd : rd < 32) :
    decodeWideMove (wideMoveBase kind ||| hw <<< 21 ||| imm <<< 5 ||| rd) =
      some ⟨kind, rd, imm, 16 * hw⟩ := by
  rw [wideMove_fields (by cases kind <;> decide) hhw himm hrd]
  generalize hword : wideMoveBase kind + (2 ^ 21 * hw + (32 * imm + rd)) = word
  have hrd' : word % 32 = rd := by cases kind <;> rw [wideMoveBase] at hword <;> omega
  have himm' : word / 32 % 2 ^ 16 = imm := by
    cases kind <;> rw [wideMoveBase] at hword <;> omega
  have hhw' : word / 2 ^ 21 % 4 = hw := by cases kind <;> rw [wideMoveBase] at hword <;> omega
  have hhigh : word / 2 ^ 31 = 1 ∧ word / 2 ^ 23 % 64 = 0x25 := by
    cases kind <;> rw [wideMoveBase] at hword <;> omega
  rw [decodeWideMove, if_pos hhigh, hrd', himm', hhw']
  cases kind with
  | movn =>
    have hkind : word / 2 ^ 29 % 4 = 0 := by rw [wideMoveBase] at hword; omega
    rw [hkind]
    rfl
  | movz =>
    have hkind : word / 2 ^ 29 % 4 = 2 := by rw [wideMoveBase] at hword; omega
    rw [hkind]
    rfl
  | movk =>
    have hkind : word / 2 ^ 29 % 4 = 3 := by rw [wideMoveBase] at hword; omega
    rw [hkind]
    rfl

/-- The encoder's word of a wide move with its operands in range. -/
theorem encodeWideMove_eq {inst : Inst} (kind : WideMoveKind) {rd imm hw : Nat} (hhw : hw < 4)
    (hinst : inst.reg .rd = some (.gpr rd) ∧ inst.imm = some imm ∧ inst.shift = some (16 * hw)) :
    encodeWideMove inst (wideMoveBase kind) =
      some (wideMoveBase kind ||| hw <<< 21 ||| (imm % 2 ^ 16) <<< 5 ||| rd) := by
  obtain ⟨hrd, himm, hshift⟩ := hinst
  have hvalid : ¬ (16 * hw > 48 ∨ 16 * hw % 16 ≠ 0) := by omega
  have hdiv : 16 * hw / 16 = hw := by omega
  have hnumber : inst.number xreg .rd = some rd := by
    rw [Inst.number, hrd]
    rfl
  rw [← Nat.and_two_pow_sub_one_eq_mod]
  simp only [encodeWideMove, hshift, himm, hnumber, Option.bind_eq_bind, Option.bind_some,
    if_neg hvalid, hdiv, Option.pure_def, Nat.reducePow, Nat.reduceSub]

/-! ## Selected constants -/

/-- The general-purpose registers of a state. -/
def WordState.gprs (s : WordState) (n : Nat) : BitVec 64 := s.word (.gpr n)

theorem gprs_writeWord (s : WordState) (rd : Nat) (v : BitVec 64) :
    (s.writeWord (.gpr rd) v).gprs = Function.update s.gprs rd v := by
  funext n
  show (s.writeWord (.gpr rd) v).word (.gpr n) = _
  by_cases h : n = rd
  · subst h
    rw [Function.update_self]
    exact update_word (read_writeWord s rfl v)
  · have hne : Register.gpr n ≠ .gpr rd := fun heq => h (Register.gpr_inj.mp heq)
    rw [Function.update_of_ne h, WordState.word, read_writeWord s rfl, Function.update_of_ne hne]
    rfl

/-- What the code of a constant consists of. -/
inductive MovesWide (rd : Nat) : SelectedInst → Prop where
  | movImm {imm : Nat} (himm : imm < 2 ^ 16) : MovesWide rd (.plain (.movImm (.gpr rd) imm))
  | movz {imm hw : Nat} (himm : imm < 2 ^ 16) (hhw : hw < 4) :
      MovesWide rd (.plain (.movz (.gpr rd) imm (16 * hw)))
  | movk {imm hw : Nat} (himm : imm < 2 ^ 16) (hhw : hw < 4) :
      MovesWide rd (.plain (.movk (.gpr rd) imm (16 * hw)))

/-- The processor does with the word of such an instruction what selection
    means by it. -/
theorem MovesWide.exec {rd : Nat} (hrd : rd < 31) {inst : SelectedInst} (h : MovesWide rd inst)
    (s : WordState) :
    ∃ word move s', encodeFixedInst inst.toInst = some word ∧ decodeWideMove word = some move ∧
      step inst s = some s' ∧ move.exec s.gprs = s'.gprs := by
  have hne : rd ≠ 31 := by omega
  have hrd' : rd < 32 := by omega
  have hexec : ∀ (kind : WideMoveKind) (imm hw : Nat),
      WideMove.exec ⟨kind, rd, imm, 16 * hw⟩ s.gprs =
        Function.update s.gprs rd (WideMove.value ⟨kind, rd, imm, 16 * hw⟩ (s.gprs rd)) :=
    fun kind imm hw => if_neg hne
  cases h with
  | @movImm imm himm =>
    refine ⟨_, _, s.writeWord (.gpr rd) (BitVec.ofNat 64 imm), ?_,
      @decodeWideMove_word .movz 0 imm rd (by decide) himm hrd', rfl, ?_⟩
    · show some (0xd2800000 ||| (imm &&& 0xffff) <<< 5 ||| rd) = _
      rw [show (0xffff : Nat) = 2 ^ 16 - 1 from rfl, Nat.and_two_pow_sub_one_eq_mod,
        Nat.mod_eq_of_lt himm]
      rfl
    · rw [hexec, gprs_writeWord]
      have hvalue : insertChunk 0 imm 0 = BitVec.ofNat 64 imm := by
        rw [insertChunk, Nat.mod_eq_of_lt himm]
        simp
      exact congrArg _ hvalue
  | @movz imm hw himm hhw =>
    refine ⟨_, _, _, ?_, decodeWideMove_word .movz hhw himm hrd', rfl, ?_⟩
    · have h := @encodeWideMove_eq (Inst.movz (.gpr rd) imm (16 * hw)) .movz rd imm hw hhw
        ⟨rfl, rfl, rfl⟩
      rw [Nat.mod_eq_of_lt himm] at h
      exact h
    · rw [hexec, gprs_writeWord]
      rfl
  | @movk imm hw himm hhw =>
    refine ⟨_, _, _, ?_, decodeWideMove_word .movk hhw himm hrd', rfl, ?_⟩
    · have h := @encodeWideMove_eq (Inst.movk (.gpr rd) imm (16 * hw)) .movk rd imm hw hhw
        ⟨rfl, rfl, rfl⟩
      rw [Nat.mod_eq_of_lt himm] at h
      exact h
    · rw [hexec, gprs_writeWord]
      rfl

/-- The code encodes, and its words do what it means. -/
theorem runWideMoves_of_runInsts {rd : Nat} (hrd : rd < 31) {code : List SelectedInst}
    (h : ∀ inst ∈ code, MovesWide rd inst) {s s' : WordState}
    (hrun : Isel.runInsts step code s = some s') :
    ∃ words, code.mapM (fun inst => encodeFixedInst inst.toInst) = some words ∧
      runWideMoves words s.gprs = some s'.gprs := by
  induction code generalizing s with
  | nil =>
    obtain rfl := Option.some.inj hrun
    exact ⟨[], rfl, rfl⟩
  | cons inst code ih =>
    obtain ⟨hinst, hcode⟩ := List.forall_mem_cons.mp h
    obtain ⟨word, move, s₁, hword, hmove, hstep, hexec⟩ := hinst.exec hrd s
    rw [Isel.runInsts, hstep, Option.bind_some] at hrun
    obtain ⟨words, hwords, hrest⟩ := ih hcode hrun
    refine ⟨word :: words, ?_, ?_⟩
    · rw [List.mapM_cons, hword, hwords]
      rfl
    · rw [runWideMoves, hmove, Option.bind_some, hexec]
      exact hrest

theorem immChunk_lt (imm shift : Nat) : immChunk imm shift < 2 ^ 16 :=
  Nat.mod_lt _ (by decide)

theorem movesWide_materializeU64Immediate (rd imm : Nat) :
    ∀ inst ∈ materializeU64Immediate (.gpr rd) imm, MovesWide rd inst := by
  -- Every shift is that of one of the four chunks.
  have hchunk : ∀ shift ∈ [0, 16, 32, 48], ∃ hw < 4, shift = 16 * hw := by
    intro shift h
    have := mem_shifts_iff.mp h
    exact ⟨shift / 16, by omega, by omega⟩
  intro inst hinst
  rw [materializeU64Immediate] at hinst
  split at hinst
  next hsmall =>
    obtain rfl := List.mem_singleton.mp hinst
    exact .movImm (by omega)
  next =>
    rcases List.mem_cons.mp hinst with rfl | hinst
    · obtain ⟨hw, hhw, hshift⟩ := hchunk _ (firstShift_mem imm)
      rw [hshift]
      exact .movz (immChunk_lt _ _) hhw
    · obtain ⟨shift, hshift, rfl⟩ := List.mem_map.mp hinst
      obtain ⟨hw, hhw, rfl⟩ := hchunk _ (List.mem_filter.mp hshift).1
      exact .movk (immChunk_lt _ _) hhw

/-- A register file of words as one of 128-bit registers. -/
def widened (regs : Nat → BitVec 64) : Register → BitVec 128
  | .gpr n => (regs n).setWidth 128
  | _ => 0

/-- A materialised constant is in its register, whatever the registers held: for
    the selected instructions on a virtual register, and for the words of those
    on a physical one. -/
theorem materializeU64Immediate_exact (imm : BitVec 64) :
    (∀ (id : Nat) (s : WordState), ∃ s',
      Isel.runInsts step (materializeU64Immediate (.virtual id .gpr64) imm.toNat) s = some s' ∧
        s'.read = Function.update s.read (.virtual id .gpr64) (imm.setWidth 128)) ∧
    ∀ (rd : Fin 31) (regs : Nat → BitVec 64), ∃ words,
      (materializeU64Immediate (.gpr rd) imm.toNat).mapM
          (fun inst => encodeFixedInst inst.toInst) = some words ∧
        runWideMoves words regs = some (Function.update regs rd imm) := by
  have himm : BitVec.ofNat 64 imm.toNat = imm := by rw [BitVec.ofNat_toNat, BitVec.setWidth_eq]
  refine ⟨fun id s => ?_, fun rd regs => ?_⟩
  · obtain ⟨s', hrun, hread⟩ :=
      @run_materializeU64Immediate (.virtual id .gpr64) rfl s imm.toNat
    rw [himm] at hread
    exact ⟨s', hrun, hread⟩
  · -- Any register file is that of a state.
    let s : WordState :=
      { regs := widened regs, flags := none, mem := fun _ => 0, literals := fun _ => 0 }
    have hs : s.gprs = regs := by
      funext n
      have hread : s.read (.gpr n) = (regs n).setWidth 128 := RegisterClass.fit_word rfl _
      rw [WordState.gprs, WordState.word, hread]
      exact BitVec.setWidth_setWidth_of_le _ (by decide)
    obtain ⟨s', hrun, hread⟩ := @run_materializeU64Immediate (.gpr rd) rfl s imm.toNat
    obtain ⟨words, hwords, hrun'⟩ :=
      runWideMoves_of_runInsts rd.isLt (movesWide_materializeU64Immediate _ _) hrun
    refine ⟨words, hwords, ?_⟩
    rw [hs] at hrun'
    rw [hrun']
    rw [himm] at hread
    refine congrArg some (funext fun n => ?_)
    show s'.word (.gpr n) = _
    rw [WordState.word, hread]
    by_cases hn : n = rd
    · subst hn
      rw [Function.update_self, Function.update_self]
      exact BitVec.setWidth_setWidth_of_le _ (by decide)
    · have hne : Register.gpr n ≠ .gpr rd := fun heq => hn (Register.gpr_inj.mp heq)
      rw [Function.update_of_ne hn, Function.update_of_ne hne, ← hs]
      rfl

end Crabbit.Aarch64
