/-
  Crabbit.Aarch64.WordMachine

  The instructions that selection emits for values in registers, and what they
  do on virtual registers of each class.

  A register is read and written at the width of its class.  The instructions on
  words take amounts of shifts modulo 64, as `lslv`, `lsrv` and `asrv` do.
-/

import Crabbit.Aarch64.BranchSemantics
import Crabbit.Aarch64.StackLayout
import Crabbit.Isel.LoweredValue
import Crabbit.Lib.ByteMemory
import Crabbit.Lib.CompareWords

namespace Crabbit.Aarch64

open Crabbit.Lib
open Crabbit.Llvm (ICmpPredicate Ty)
open Crabbit.Isel (WordOp)

/-! ## Instructions -/

/-- An instruction as it is selected: with the attributes of a literal reference
    beside those of `Inst`. -/
structure SelectedInst extends Inst where
  literalLabel : Option String := none
  literalBytes : Option (List UInt8) := none
  deriving DecidableEq

namespace SelectedInst

def plain (inst : Inst) : SelectedInst := { inst with }

def unary (opcode : Aarch64Opcode) (rd rn : Register) : SelectedInst :=
  { opcode, rd := some rd, rn := some rn }

def fmovRr (opcode : Aarch64Opcode) (rd rm : Register) : SelectedInst :=
  { opcode, rd := some rd, rm := some rm }

def fmovImm (opcode : Aarch64Opcode) (rd : Register) (imm8 : Nat) : SelectedInst :=
  { opcode, rd := some rd, imm := some imm8 }

def adrLiteral (rd : Register) (label : String) (bytes : List UInt8) : SelectedInst :=
  { opcode := .adrLiteral, rd := some rd, literalLabel := some label, literalBytes := some bytes }

end SelectedInst

/-- The opcode of an operation on words. -/
def wordOpcode : WordOp → Aarch64Opcode
  | .add => .add
  | .sub => .sub
  | .mul => .mul
  | .umulh => .umulh
  | .and => .and
  | .or => .or
  | .xor => .xor
  | .shl => .shl
  | .lsr => .lsr
  | .asr => .asr

/-- `condition_code`. -/
def conditionCode : ICmpPredicate → ConditionCode
  | .eq => .eq
  | .ne => .ne
  | .ult => .lo
  | .uge => .hs
  | .ule => .ls
  | .ugt => .hi
  | .slt => .lt
  | .sge => .ge
  | .sle => .le
  | .sgt => .gt

/-! ## Constants -/

/-- The 16 bits of a constant from `shift` on. -/
def immChunk (imm shift : Nat) : Nat := imm / 2 ^ shift % 2 ^ 16

/-- The shift of the first chunk that is not zero. -/
def firstShift (imm : Nat) : Nat := ([0, 16, 32, 48].find? (immChunk imm · ≠ 0)).getD 0

/-- `materialize_u64_immediate`. -/
def materializeU64Immediate (dst : Register) (imm : Nat) : List SelectedInst :=
  if imm ≤ 0xffff then [.plain (.movImm dst imm)]
  else .plain (.movz dst (immChunk imm (firstShift imm)) (firstShift imm)) ::
    ([0, 16, 32, 48].filter fun shift => shift ≠ firstShift imm ∧ immChunk imm shift ≠ 0).map
      fun shift => .plain (.movk dst (immChunk imm shift) shift)

/-- `vfp_expand_imm_f64`. -/
def vfpExpandImmF64 (imm8 : Nat) : Nat :=
  let b6 := imm8 / 2 ^ 6 % 2
  let exp := (1 - b6) * 2 ^ 10 + b6 * (0xff * 2 ^ 2) + imm8 / 2 ^ 4 % 4
  imm8 / 2 ^ 7 % 2 * 2 ^ 63 + exp * 2 ^ 52 + imm8 % 2 ^ 4 * 2 ^ 48

/-- `vfp_expand_imm_f32`. -/
def vfpExpandImmF32 (imm8 : Nat) : Nat :=
  let b6 := imm8 / 2 ^ 6 % 2
  let exp := (1 - b6) * 2 ^ 7 + b6 * (0x1f * 2 ^ 2) + imm8 / 2 ^ 4 % 4
  imm8 / 2 ^ 7 % 2 * 2 ^ 31 + exp * 2 ^ 23 + imm8 % 2 ^ 4 * 2 ^ 19

/-- `fmov_imm8_for_f64_bits` and `fmov_imm8_for_f32_bits`. -/
def fmovImm8 (kind : Isel.FpKind) (bits : Nat) : Option Nat :=
  match kind with
  | .f64 => (List.range 256).find? fun imm8 => vfpExpandImmF64 imm8 = bits
  | .f32 => (List.range 256).find? fun imm8 => vfpExpandImmF32 imm8 = bits % 2 ^ 32

/-! ## The target -/

/-- `FpKind::class`. -/
def fpClass : Isel.FpKind → RegisterClass
  | .f32 => .fpr32
  | .f64 => .fpr64

/-- Whether `vec_shape` finds a shape. -/
def hasVecShape : Ty → Bool
  | .vector .fp32 4 | .vector .fp64 2 | .vector (.int 32 _) 4 | .vector (.int 64 _) 2 => true
  | _ => false

/-- The floating-point file of `materialize_fp` and of `materialize`. -/
def fpFile : Isel.FpFile Register SelectedInst where
  kind
    | .fp32 => some .f32
    | .fp64 => some .f64
    | _ => none
  isVector := hasVecShape
  kindOf r :=
    match r.registerClass with
    | .fpr32 => some .f32
    | .fpr64 => some .f64
    | _ => none
  isSimd r := decide (r.registerClass = .simd128)
  virtualFpr kind id := .virtual id (fpClass kind)
  virtualSimd id := .virtual id .simd128
  toGpr
    | .f64 => SelectedInst.unary .fmovXD
    | .f32 => SelectedInst.unary .fmovWS
  toFpr
    | .f64 => SelectedInst.unary .fmovDX
    | .f32 => SelectedInst.unary .fmovSW
  fmovImm kind bits := (fmovImm8 kind bits).map fun imm8 dst =>
    match kind with
    | .f64 => .fmovImm .fmovImmD dst imm8
    | .f32 => .fmovImm .fmovImmS dst imm8
  load
    | .f64 => fun dst addr => .plain (.ldrRegOffsetSized .ldrdRegOffset dst addr 0)
    | .f32 => fun dst addr => .plain (.ldrRegOffsetSized .ldrsRegOffset dst addr 0)

/-- What the back end emits. -/
def target : Isel.Target where
  Register := Register
  Inst := SelectedInst
  virtualGpr id := .virtual id .gpr64
  binary op rd rn rm := .plain (.binary (wordOpcode op) rd rn rm)
  cmp rn rm := .plain (.cmp rn rm)
  cset rd predicate := .plain (.cset rd (conditionCode predicate))
  materializeU64Immediate
  addSpOffset rd offset := .plain (.addSpOffset rd offset)
  adrLiteral := .adrLiteral
  fp := some fpFile

/-! ## The machine -/

/-- The registers hold what was last written to them. -/
structure WordState where
  regs : Register → BitVec 128
  flags : Option Flags
  mem : ByteMemory
  /-- Where the literals are. -/
  literals : String → BitVec 64

/-- The width of a register. -/
def RegisterClass.bits : RegisterClass → Nat
  | .gpr64 | .fpr64 => 64
  | .gpr32 | .fpr32 => 32
  | .simd128 => 128
  | .nzcv => 4

/-- What a register of a class keeps of a value. -/
def RegisterClass.fit (cls : RegisterClass) (v : BitVec 128) : BitVec 128 :=
  (v.setWidth cls.bits).setWidth 128

namespace WordState

def read (s : WordState) (r : Register) : BitVec 128 := r.registerClass.fit (s.regs r)

def word (s : WordState) (r : Register) : BitVec 64 := (s.read r).setWidth 64

def write (s : WordState) (r : Register) (v : BitVec 128) : WordState :=
  { s with regs := Function.update s.regs r v }

def writeWord (s : WordState) (r : Register) (v : BitVec 64) : WordState :=
  s.write r (v.setWidth 128)

theorem read_write (s : WordState) (r : Register) (v : BitVec 128) :
    (s.write r v).read = Function.update s.read r (r.registerClass.fit v) := by
  funext r'
  show r'.registerClass.fit (Function.update s.regs r v r') = _
  by_cases h : r' = r
  · subst h
    rw [Function.update_self, Function.update_self]
  · rw [Function.update_of_ne h, Function.update_of_ne h, read]

end WordState

/-- The result of an operation on words. -/
def binaryResult (a b : BitVec 64) : Aarch64Opcode → Option (BitVec 64)
  | .add => some (a + b)
  | .sub => some (a - b)
  | .mul => some (a * b)
  | .umulh => some (BitVec.ofNat 64 (a.toNat * b.toNat / 2 ^ 64))
  | .and => some (a &&& b)
  | .or => some (a ||| b)
  | .xor => some (a ^^^ b)
  | .shl => some (a <<< (b.toNat % 64))
  | .lsr => some (a >>> (b.toNat % 64))
  | .asr => some (a.sshiftRight (b.toNat % 64))
  | _ => none

/-- The flags of `cmp`: those of the difference, with the carry of `a + ~b + 1`. -/
def compareFlags (a b : BitVec 64) : Flags where
  n := (a - b).msb
  z := a == b
  c := b.ule a
  v := decide ((a - b).toInt ≠ a.toInt - b.toInt)

/-- A word with 16 of its bits replaced. -/
def insertChunk (w : BitVec 64) (imm shift : Nat) : BitVec 64 :=
  w &&& ~~~(BitVec.ofNat 64 0xffff <<< shift) ||| BitVec.ofNat 64 (imm % 2 ^ 16) <<< shift

/-- One instruction; `none` where it lacks an operand, or reads flags that were
    never set. -/
def step (inst : SelectedInst) (s : WordState) : Option WordState :=
  match inst.opcode with
  | .movImm => do
    let rd ← inst.rd
    let imm ← inst.imm
    some (s.writeWord rd (BitVec.ofNat 64 imm))
  | .movz => do
    let rd ← inst.rd
    let imm ← inst.imm
    let shift ← inst.shift
    some (s.writeWord rd (insertChunk 0 imm shift))
  | .movk => do
    let rd ← inst.rd
    let imm ← inst.imm
    let shift ← inst.shift
    some (s.writeWord rd (insertChunk (s.word rd) imm shift))
  | .mov | .fmovD | .fmovS | .movV16b => do
    let rd ← inst.rd
    let rm ← inst.rm
    some (s.write rd (s.read rm))
  | .fmovXD | .fmovDX | .fmovWS | .fmovSW => do
    let rd ← inst.rd
    let rn ← inst.rn
    some (s.writeWord rd (s.word rn))
  | .fmovImmD => do
    let rd ← inst.rd
    let imm ← inst.imm
    some (s.writeWord rd (BitVec.ofNat 64 (vfpExpandImmF64 imm)))
  | .fmovImmS => do
    let rd ← inst.rd
    let imm ← inst.imm
    some (s.writeWord rd (BitVec.ofNat 64 (vfpExpandImmF32 imm)))
  | .dupV2dGpr => do
    let rd ← inst.rd
    let rn ← inst.rn
    some (s.write rd (s.word rn ++ s.word rn))
  | .ldrdRegOffset => do
    let rd ← inst.rd
    let rn ← inst.rn
    let imm ← inst.imm
    some (s.writeWord rd (BitVec.ofNat 64 (ofLE (s.mem.load ((s.word rn).toNat + imm) 8))))
  | .ldrsRegOffset => do
    let rd ← inst.rd
    let rn ← inst.rn
    let imm ← inst.imm
    some (s.writeWord rd (BitVec.ofNat 64 (ofLE (s.mem.load ((s.word rn).toNat + imm) 4))))
  | .cmp => do
    let rn ← inst.rn
    let rm ← inst.rm
    some { s with flags := some (compareFlags (s.word rn) (s.word rm)) }
  | .cset => do
    let rd ← inst.rd
    let cond ← inst.cond
    let flags ← s.flags
    some (s.writeWord rd (Isel.bit (cond.holds flags)))
  | .addSpOffset => do
    let rd ← inst.rd
    let imm ← inst.imm
    some (s.writeWord rd (s.word (.physical .sp) + BitVec.ofNat 64 imm))
  | .adrLiteral => do
    let rd ← inst.rd
    let label ← inst.literalLabel
    some (s.writeWord rd (s.literals label))
  | opcode => do
    let rd ← inst.rd
    let rn ← inst.rn
    let rm ← inst.rm
    let v ← binaryResult (s.word rn) (s.word rm) opcode
    some (s.writeWord rd v)

/-! ## Registers keep words -/

/-- A word fits a register of 64 bits. -/
theorem RegisterClass.fit_word {cls : RegisterClass} (h : cls.bits = 64) (v : BitVec 64) :
    cls.fit (v.setWidth 128) = v.setWidth 128 := by
  rw [fit, h]
  congr 1
  exact BitVec.setWidth_setWidth_of_le v (by decide)

/-- What a scalar register keeps of a word is a word. -/
theorem RegisterClass.fit_of_le {cls : RegisterClass} (h : cls.bits ≤ 64) (v : BitVec 64) :
    cls.fit (v.setWidth 128) = ((v.setWidth cls.bits).setWidth 64).setWidth 128 := by
  rw [fit, BitVec.setWidth_setWidth_of_le v (by omega)]
  refine BitVec.eq_of_getLsbD_eq fun i hi => ?_
  simp only [BitVec.getLsbD_setWidth]
  by_cases hlt : i < 64
  · simp [hlt, hi]
  · simp [hlt, show ¬i < cls.bits by omega]

theorem read_writeWord (s : WordState) {r : Register} (h : r.registerClass.bits = 64)
    (v : BitVec 64) : (s.writeWord r v).read = Function.update s.read r (v.setWidth 128) := by
  rw [WordState.writeWord, WordState.read_write, RegisterClass.fit_word h]

/-! ## Constants -/

theorem getLsbD_insertChunk {w : BitVec 64} {imm shift i : Nat} (hi : i < 64) :
    (insertChunk w imm shift).getLsbD i =
      if shift ≤ i ∧ i < shift + 16 then imm.testBit (i - shift) else w.getLsbD i := by
  have hones : ∀ j, (BitVec.ofNat 64 0xffff).getLsbD j = decide (j < 16) := by
    intro j
    rw [BitVec.getLsbD_ofNat]
    have h := Nat.testBit_two_pow_sub_one 16 j
    rw [show (0xffff : Nat) = 2 ^ 16 - 1 from rfl, h]
    rcases Nat.lt_or_ge j 16 with hj | hj
    · simp [hj, show j < 64 by omega]
    · simp [show ¬j < 16 by omega]
  rw [insertChunk, BitVec.getLsbD_or, BitVec.getLsbD_and, BitVec.getLsbD_not,
    BitVec.getLsbD_shiftLeft, BitVec.getLsbD_shiftLeft, hones, BitVec.getLsbD_ofNat,
    Nat.testBit_mod_two_pow]
  by_cases hlo : shift ≤ i
  · by_cases hhi : i < shift + 16
    · simp [hlo, hhi, hi, show ¬i < shift by omega, show i - shift < 16 by omega,
        show i - shift < 64 by omega]
    · simp [hlo, hhi, hi, show ¬i < shift by omega, show ¬i - shift < 16 by omega]
  · simp [hlo, hi, show i < shift by omega]

/-- Bit `i` of a constant is in the chunk from `i / 16 * 16` on. -/
theorem testBit_immChunk (imm i : Nat) :
    (immChunk imm (i / 16 * 16)).testBit (i - i / 16 * 16) = imm.testBit i := by
  rw [immChunk, Nat.testBit_mod_two_pow, Nat.testBit_div_two_pow]
  have hdiv := Nat.div_mul_le_self i 16
  have hlt : i - i / 16 * 16 < 16 := by omega
  rw [decide_eq_true hlt, Bool.true_and, Nat.sub_add_cancel hdiv]

theorem update_word {f : Register → BitVec 128} {s : WordState} {r : Register} {w : BitVec 64}
    (h : s.read = Function.update f r (w.setWidth 128)) : s.word r = w := by
  rw [WordState.word, h, Function.update_self]
  exact BitVec.setWidth_setWidth_of_le w (by decide)

/-- The instructions that fill in the remaining chunks. -/
theorem run_movk {imm : Nat} {rd : Register} (hrd : rd.registerClass.bits = 64)
    {f : Register → BitVec 128} (shifts : List Nat) (hshifts : ∀ shift ∈ shifts, shift % 16 = 0)
    (s : WordState) (w : BitVec 64) (hw : s.read = Function.update f rd (w.setWidth 128)) :
    ∃ s' w', Isel.runInsts step (shifts.map fun shift =>
        SelectedInst.plain (.movk rd (immChunk imm shift) shift)) s = some s' ∧
      s'.read = Function.update f rd ((w' : BitVec 64).setWidth 128) ∧
      ∀ i < 64, w'.getLsbD i = if i / 16 * 16 ∈ shifts then imm.testBit i else w.getLsbD i := by
  induction shifts generalizing s w with
  | nil => exact ⟨s, w, rfl, hw, fun i _ => (if_neg List.not_mem_nil).symm⟩
  | cons shift shifts ih =>
    have hread : (s.writeWord rd (insertChunk (s.word rd) (immChunk imm shift) shift)).read =
        Function.update f rd ((insertChunk w (immChunk imm shift) shift).setWidth 128) := by
      rw [read_writeWord s hrd, hw, Function.update_idem, update_word hw]
    obtain ⟨s', w', hrun, hread', hbits⟩ :=
      ih (fun k hk => hshifts k (List.mem_cons_of_mem _ hk)) _ _ hread
    refine ⟨s', w', hrun, hread', fun i hi => ?_⟩
    have hmul := hshifts shift List.mem_cons_self
    rw [hbits i hi, getLsbD_insertChunk hi]
    -- A chunk filled in twice is filled in with the same bits.
    by_cases hmem : i / 16 * 16 ∈ shifts
    · rw [if_pos hmem, if_pos (List.mem_cons_of_mem _ hmem)]
    · rw [if_neg hmem]
      by_cases hi' : i / 16 * 16 = shift
      · rw [if_pos (by omega), if_pos (List.mem_cons.mpr (Or.inl hi')), ← hi', testBit_immChunk]
      · have hnot : i / 16 * 16 ∉ shift :: shifts :=
          fun h => (List.mem_cons.mp h).elim hi' hmem
        rw [if_neg (by omega), if_neg hnot]

/-- The shifts of the chunks of a word. -/
theorem mem_shifts_iff {shift : Nat} : shift ∈ [0, 16, 32, 48] ↔ shift % 16 = 0 ∧ shift < 64 := by
  simp only [List.mem_cons, List.not_mem_nil, or_false]
  omega

theorem firstShift_mem (imm : Nat) : firstShift imm ∈ [0, 16, 32, 48] := by
  rw [firstShift]
  cases h : [0, 16, 32, 48].find? (immChunk imm · ≠ 0) with
  | none => exact List.mem_cons_self
  | some shift => exact List.mem_of_find?_eq_some h

/-- The first chunk and those filled in are all that are not zero. -/
theorem testBit_chunks (imm : Nat) {i : Nat} (hi : i < 64) :
    (if i / 16 * 16 ∈ [0, 16, 32, 48].filter fun shift =>
          shift ≠ firstShift imm ∧ immChunk imm shift ≠ 0 then imm.testBit i
      else (insertChunk 0 (immChunk imm (firstShift imm)) (firstShift imm)).getLsbD i) =
        imm.testBit i := by
  have hfirst := mem_shifts_iff.mp (firstShift_mem imm)
  have hchunk := testBit_immChunk imm i
  have hmem : i / 16 * 16 ∈ [0, 16, 32, 48].filter (fun shift =>
        shift ≠ firstShift imm ∧ immChunk imm shift ≠ 0) ↔
      i / 16 * 16 ≠ firstShift imm ∧ immChunk imm (i / 16 * 16) ≠ 0 := by
    rw [List.mem_filter, mem_shifts_iff, decide_eq_true_eq]
    exact and_iff_right ⟨by omega, by omega⟩
  rw [getLsbD_insertChunk hi]
  by_cases heq : i / 16 * 16 = firstShift imm
  · rw [if_neg (fun h => (hmem.mp h).1 heq), if_pos (by omega), ← heq]
    exact hchunk
  · by_cases hzero : immChunk imm (i / 16 * 16) = 0
    · rw [hzero, Nat.zero_testBit] at hchunk
      rw [if_neg (fun h => (hmem.mp h).2 hzero), if_neg (by omega), ← hchunk]
      exact BitVec.getLsbD_zero
    · rw [if_pos (hmem.mpr ⟨heq, hzero⟩)]

/-- The code of a constant leaves it in its register. -/
theorem run_materializeU64Immediate {rd : Register} (hrd : rd.registerClass.bits = 64)
    (s : WordState) (imm : Nat) :
    ∃ s', Isel.runInsts step (materializeU64Immediate rd imm) s = some s' ∧
      s'.read = Function.update s.read rd ((BitVec.ofNat 64 imm).setWidth 128) := by
  have hshifts : ∀ shift ∈ [0, 16, 32, 48].filter fun shift =>
      shift ≠ firstShift imm ∧ immChunk imm shift ≠ 0, shift % 16 = 0 :=
    fun shift h => (mem_shifts_iff.mp (List.mem_filter.mp h).1).1
  rw [materializeU64Immediate]
  split
  · exact ⟨_, rfl, read_writeWord s hrd _⟩
  · obtain ⟨s', w', hrun, hread, hbits⟩ := run_movk hrd _ hshifts _ _
      (read_writeWord s hrd (insertChunk 0 (immChunk imm (firstShift imm)) (firstShift imm)))
    have heq : w' = BitVec.ofNat 64 imm := by
      refine BitVec.eq_of_getLsbD_eq fun i hi => ?_
      rw [hbits i hi, testBit_chunks imm hi, BitVec.getLsbD_ofNat, decide_eq_true hi,
        Bool.true_and]
    exact ⟨s', hrun, by rw [hread, heq]⟩

/-! ## The laws -/

/-- The condition of a predicate reads it off the flags of a comparison. -/
theorem holds_compareFlags (a b : BitVec 64) (predicate : ICmpPredicate) :
    (conditionCode predicate).holds (compareFlags a b) = Isel.compares predicate a b := by
  have hlt : (!(compareFlags a b).n == (compareFlags a b).v) = a.slt b := sign_bne_overflow a b
  have hlo : (!b.ule a) = a.ult b := by rw [BitVec.ule_eq_not_ult, Bool.not_not]
  have hle := beq_or_slt a b
  have hule := ult_or_beq a b
  rw [Isel.compares_eq_bitVecCompare]
  cases predicate with
  | eq => rfl
  | ne => rfl
  | slt => exact hlt
  | sge =>
    show ((compareFlags a b).n == (compareFlags a b).v) = b.sle a
    rw [BitVec.sle_eq_not_slt, ← hlt, Bool.not_not]
  | sle =>
    show (a == b || !(compareFlags a b).n == (compareFlags a b).v) = a.sle b
    rw [hlt, hle]
  | sgt =>
    show (!(a == b) && (compareFlags a b).n == (compareFlags a b).v) = b.slt a
    rw [← Bool.not_not (b.slt a), ← BitVec.sle_eq_not_slt, ← hle, ← hlt, Bool.not_or, Bool.not_not]
  | ult => exact hlo
  | uge => rfl
  | ule =>
    show (!b.ule a || a == b) = a.ule b
    rw [hlo, hule]
  | ugt =>
    show (b.ule a && !(a == b)) = b.ult a
    rw [← Bool.not_not (b.ult a), ← BitVec.ule_eq_not_ult, ← hule, ← hlo, Bool.not_or, Bool.not_not]

/-- What the machine needs of an instruction that writes a word. -/
theorem writes_of_step {inst : SelectedInst} {rd : Register} (hrd : rd.registerClass.bits ≤ 64)
    (h : ∀ s, ∃ v, step inst s = some (s.writeWord rd v)) :
    Isel.Writes step WordState.read [inst] rd := by
  intro s
  obtain ⟨v, hv⟩ := h s
  refine ⟨s.writeWord rd v, (v.setWidth rd.registerClass.bits).setWidth 64,
    by rw [Isel.runInsts, hv]; rfl, ?_⟩
  rw [WordState.writeWord, WordState.read_write, RegisterClass.fit_of_le hrd]

theorem writesWord_of_step {inst : SelectedInst} {rd : Register} {v : WordState → BitVec 64}
    {n : Nat} (hrd : rd.registerClass.bits = n) (hn : n ≤ 64)
    (h : ∀ s, step inst s = some (s.writeWord rd (v s))) :
    Isel.WritesWord step WordState.read [inst] rd fun s => ((v s).setWidth n).setWidth 64 := by
  subst hrd
  intro s
  refine ⟨_, by rw [Isel.runInsts, h s]; rfl, ?_⟩
  rw [WordState.writeWord, WordState.read_write, RegisterClass.fit_of_le hn]

theorem virtualFpr_bits (kind : Isel.FpKind) (id : Nat) :
    (fpFile.virtualFpr kind id).registerClass.bits ≤ 64 := by
  cases kind
  · exact (show 32 ≤ 64 by decide)
  · exact Nat.le_refl 64

/-- The laws of the floating-point file. -/
theorem fpLaws : Isel.FpLaws fpFile (fun id => Register.virtual id .gpr64) step WordState.read where
  toGpr kind d r := by
    cases kind <;> exact fun s => ⟨_, rfl, read_writeWord s rfl _⟩
  toFpr kind d r := by
    cases kind
    · exact writesWord_of_step rfl (by decide) fun s => rfl
    · exact writesWord_of_step rfl (by decide) fun s => rfl
  fmovImm := by
    intro kind bits inst h d
    obtain ⟨imm8, -, rfl⟩ := Option.map_eq_some_iff.mp h
    cases kind <;> exact writes_of_step (virtualFpr_bits _ d) fun s => ⟨_, rfl⟩
  load kind d r := by
    cases kind <;> exact writes_of_step (virtualFpr_bits _ d) fun s => ⟨_, rfl⟩

/-- A virtual register has one number. -/
theorem isVirtual_id {i : Nat} {r : Register} (h : Isel.IsVirtual target i r) :
    ∃ cls, r = .virtual i cls := by
  rcases h with rfl | ⟨F, hF, rfl | ⟨kind, rfl⟩⟩
  · exact ⟨_, rfl⟩
  · cases hF
    exact ⟨_, rfl⟩
  · cases hF
    exact ⟨_, rfl⟩

/-- The machine that selection is proved against. -/
def machine : Isel.Machine target where
  State := WordState
  step
  read := WordState.read
  condition s predicate := s.flags.map (conditionCode predicate).holds
  has _ := True
  virtual_inj := by
    intro i j r hi hj
    obtain ⟨_, rfl⟩ := isVirtual_id hi
    obtain ⟨_, heq⟩ := isVirtual_id hj
    exact (Register.virtual.inj heq).1
  step_binary := by
    intro op _ s d a b
    refine ⟨s.writeWord (.virtual d .gpr64) (op.eval (s.word a) (s.word b)), ?_,
      read_writeWord s rfl _⟩
    cases op <;> rfl
  step_cmp s a b := by
    refine ⟨{ s with flags := some (compareFlags (s.word a) (s.word b)) }, rfl, rfl, fun p => ?_⟩
    exact congrArg some (holds_compareFlags _ _ p)
  step_cset := by
    intro s predicate holds h d
    obtain ⟨flags, hflags, rfl⟩ := Option.map_eq_some_iff.mp h
    refine ⟨s.writeWord (.virtual d .gpr64) (Isel.bit ((conditionCode predicate).holds flags)), ?_,
      read_writeWord s rfl _, rfl⟩
    show (s.flags.bind fun flags => _) = _
    rw [hflags]
    rfl
  run_immediate s d v := run_materializeU64Immediate rfl s v
  addSpOffset d offset := writes_of_step (Nat.le_refl 64) fun s => ⟨_, rfl⟩
  adrLiteral d label bytes := writes_of_step (Nat.le_refl 64) fun s => ⟨_, rfl⟩
  fpLaws F hF := by
    cases hF
    exact fpLaws

end Crabbit.Aarch64
