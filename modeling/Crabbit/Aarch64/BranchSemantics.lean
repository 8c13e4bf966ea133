/-
  Crabbit.Aarch64.BranchSemantics

  What the processor does with the words of a branch: fetch, decoding by the
  architecture's fields, and where control goes.  The words the encoder emits
  are read back here.
-/

import Crabbit.Aarch64.Encoding

namespace Crabbit.Aarch64

open Crabbit.Lib

/-! ## The architecture -/

structure Flags where
  n : Bool
  z : Bool
  c : Bool
  v : Bool
  deriving DecidableEq

/-- The condition flags and the general-purpose registers. -/
structure BranchState where
  flags : Flags
  regs : Nat → BitVec 64

/-- `ConditionHolds` of the architecture. -/
def ConditionCode.holds (f : Flags) : ConditionCode → Bool
  | .eq => f.z
  | .ne => !f.z
  | .hs => f.c
  | .lo => !f.c
  | .mi => f.n
  | .pl => !f.n
  | .vs => f.v
  | .vc => !f.v
  | .hi => f.c && !f.z
  | .ls => !f.c || f.z
  | .ge => f.n == f.v
  | .lt => f.n != f.v
  | .gt => !f.z && f.n == f.v
  | .le => f.z || f.n != f.v

/-- The condition with the given 4-bit field; 14 and 15 are `al` and `nv`. -/
def ConditionCode.ofEncoding : Nat → Option ConditionCode
  | 0 => some .eq | 1 => some .ne | 2 => some .hs | 3 => some .lo | 4 => some .mi
  | 5 => some .pl | 6 => some .vs | 7 => some .vc | 8 => some .hi | 9 => some .ls
  | 10 => some .ge | 11 => some .lt | 12 => some .gt | 13 => some .le | _ => none

/-- A decoded branch with its byte offset from its own address. -/
inductive Branch where
  | b (offset : Int)
  | bCond (cond : ConditionCode) (offset : Int)
  | cbnz (rn : Nat) (offset : Int)
  deriving DecidableEq

/-- `B`: bits 31..26 are 000101 over `imm26`.  `B.cond`: 0x54 over `imm19`,
    a zero bit and `cond`.  `CBNZ` of an X register: 0xb5 over `imm19` and `Rt`. -/
def decodeBranch (word : Nat) : Option Branch :=
  if word / 2 ^ 26 = 5 then some (.b (4 * toSigned 26 (word % 2 ^ 26)))
  else if word / 2 ^ 24 = 0x54 ∧ word / 16 % 2 = 0 then
    (ConditionCode.ofEncoding (word % 16)).map fun cond =>
      .bCond cond (4 * toSigned 19 (word / 32 % 2 ^ 19))
  else if word / 2 ^ 24 = 0xb5 then
    some (.cbnz (word % 32) (4 * toSigned 19 (word / 32 % 2 ^ 19)))
  else none

namespace Branch

def taken (st : BranchState) : Branch → Bool
  | .b _ => true
  | .bCond cond _ => cond.holds st.flags
  | .cbnz rn _ => st.regs rn != 0

def offset : Branch → Int
  | .b offset | .bCond _ offset | .cbnz _ offset => offset

end Branch

/-- The word the processor fetches at `pc`. -/
def wordAt (text : List UInt8) (pc : Nat) : Option Nat := (sliceAt text pc 4).map ofLE

/-- Where control goes from `pc` through at most `n` branch words: a taken
    branch leaves for its target, one that is not taken falls into the next
    word, and after the last one control is behind it. -/
def follow (text : List UInt8) (st : BranchState) : Nat → Nat → Option Int
  | 0, pc => some pc
  | n + 1, pc => do
    let word ← wordAt text pc
    let branch ← decodeBranch word
    if branch.taken st then some (pc + branch.offset) else follow text st n (pc + 4)

/-! ## Condition codes -/

namespace ConditionCode

theorem holds_invert (f : Flags) (cond : ConditionCode) :
    cond.invert.holds f = !cond.holds f := by
  cases cond <;> simp [invert, holds, bne]

theorem encoding_lt (cond : ConditionCode) : cond.encoding < 16 := by
  cases cond <;> decide

theorem ofEncoding_encoding (cond : ConditionCode) : ofEncoding cond.encoding = some cond := by
  cases cond <;> rfl

end ConditionCode

/-! ## Displacements -/

/-- The displacement field, read as a signed number, spans from `pc` to the
    target; where it would not, the encoder reports the given error. -/
theorem displacement_eq_ok {bits target pc delta : Nat} {error : EncodeError} (hbits : 0 < bits)
    (hbits' : bits ≤ 32) (htarget : 4 ∣ target) (hpc : 4 ∣ pc)
    (h : displacement bits target pc error = .ok delta) :
    delta < 2 ^ bits ∧ 4 * toSigned bits delta = (target : Int) - pc := by
  rw [displacement] at h
  split at h
  · next hfits =>
    cases h
    rw [Nat.and_two_pow_sub_one_eq_mod, wrap_mod_two_pow hbits']
    refine ⟨wrap_lt _ _, ?_⟩
    rw [toSigned_wrap hbits hfits.1 hfits.2, deltaWords]
    have hdvd : (4 : Int) ∣ (target : Int) - pc := by omega
    exact Int.mul_tdiv_cancel' hdvd
  · cases h

/-- A target that does not fit is reported, never truncated. -/
theorem displacement_eq_error {bits target pc : Nat} {error : EncodeError}
    (h : ¬ (-2 ^ (bits - 1) ≤ deltaWords target pc ∧ deltaWords target pc < 2 ^ (bits - 1))) :
    displacement bits target pc error = .error error := if_neg h

/-! ## Fields of words -/

/-- A field below a base word is added to it. -/
theorem or_eq_add {base k x : Nat} (hbase : 2 ^ k ∣ base) (hx : x < 2 ^ k) :
    base ||| x = base + x := by
  obtain ⟨a, rfl⟩ := hbase
  rw [Nat.two_pow_add_eq_or_of_lt hx]

/-- A word of three fields: a base, 19 bits and 5 bits. -/
theorem three_fields {base imm low : Nat} (hbase : 2 ^ 24 ∣ base) (himm : imm < 2 ^ 19)
    (hlow : low < 32) : base ||| imm <<< 5 ||| low = base + (32 * imm + low) := by
  have hfields : imm <<< 5 ||| low = 32 * imm + low := by
    rw [Nat.shiftLeft_eq, Nat.mul_comm]
    exact or_eq_add (k := 5) (Nat.dvd_mul_right _ _) hlow
  rw [Nat.or_assoc, hfields]
  exact or_eq_add hbase (by omega)

theorem decodeBranch_b {delta : Nat} (h : delta < 2 ^ 26) :
    0x14000000 ||| delta < 2 ^ 32 ∧
      decodeBranch (0x14000000 ||| delta) = some (.b (4 * toSigned 26 delta)) := by
  rw [or_eq_add (k := 26) (by decide) h]
  refine ⟨by omega, ?_⟩
  have hhigh : (0x14000000 + delta) / 2 ^ 26 = 5 := by omega
  have hlow : (0x14000000 + delta) % 2 ^ 26 = delta := by omega
  rw [decodeBranch, if_pos hhigh, hlow]

theorem decodeBranch_bCond {delta : Nat} (cond : ConditionCode) (h : delta < 2 ^ 19) :
    0x54000000 ||| delta <<< 5 ||| cond.encoding < 2 ^ 32 ∧
      decodeBranch (0x54000000 ||| delta <<< 5 ||| cond.encoding) =
        some (.bCond cond (4 * toSigned 19 delta)) := by
  have hcond := cond.encoding_lt
  rw [three_fields (by decide) h (by omega)]
  refine ⟨by omega, ?_⟩
  have h26 : (0x54000000 + (32 * delta + cond.encoding)) / 2 ^ 26 ≠ 5 := by omega
  have h24 : (0x54000000 + (32 * delta + cond.encoding)) / 2 ^ 24 = 0x54 := by omega
  have hbit : (0x54000000 + (32 * delta + cond.encoding)) / 16 % 2 = 0 := by omega
  have hlow : (0x54000000 + (32 * delta + cond.encoding)) % 16 = cond.encoding := by omega
  have himm : (0x54000000 + (32 * delta + cond.encoding)) / 32 % 2 ^ 19 = delta := by omega
  rw [decodeBranch, if_neg h26, if_pos ⟨h24, hbit⟩, hlow, himm, ConditionCode.ofEncoding_encoding]
  rfl

theorem decodeBranch_cbnz {delta rn : Nat} (h : delta < 2 ^ 19) (hrn : rn < 32) :
    0xb5000000 ||| delta <<< 5 ||| rn < 2 ^ 32 ∧
      decodeBranch (0xb5000000 ||| delta <<< 5 ||| rn) =
        some (.cbnz rn (4 * toSigned 19 delta)) := by
  rw [three_fields (by decide) h hrn]
  refine ⟨by omega, ?_⟩
  have h26 : (0xb5000000 + (32 * delta + rn)) / 2 ^ 26 ≠ 5 := by omega
  have h54 : ¬ ((0xb5000000 + (32 * delta + rn)) / 2 ^ 24 = 0x54 ∧
      (0xb5000000 + (32 * delta + rn)) / 16 % 2 = 0) := by omega
  have h24 : (0xb5000000 + (32 * delta + rn)) / 2 ^ 24 = 0xb5 := by omega
  have hlow : (0xb5000000 + (32 * delta + rn)) % 32 = rn := by omega
  have himm : (0xb5000000 + (32 * delta + rn)) / 32 % 2 ^ 19 = delta := by omega
  rw [decodeBranch, if_neg h26, if_neg h54, if_pos h24, hlow, himm]

end Crabbit.Aarch64
