/-
  Crabbit.X86.EncodeSound

  The encoder computes what the op says: the bytes of every straight-line
  integer op, decoded by the x86-64 rules and executed, leave what the op is
  to leave in its destination, in memory and in the flags of a comparison, and
  no other register changes but the op's clobbers.

  `perform` is what an op says, on the values its operands hold before it.
  `encodeInst_computes` has no case for coinciding registers: the sequences
  are followed instruction by instruction, and where `rd` equals `rn` or `rm`
  the values read later are the ones the sequence has left.
-/

import Crabbit.X86.Encoding
import Crabbit.Lib.CompareWords
import Crabbit.Lib.X64

namespace Crabbit.X86

open Crabbit.Lib Crabbit.Lib.X64

/-! ## What the ops say -/

/-- The hardware number of a register operand. -/
def Inst.num (inst : Inst) (key : RegKey) : Option Nat :=
  match inst.reg key with
  | some (.gpr number) => some number
  | _ => none

/-- The result of a three-address op on the values of `rn` and `rm`; `none`
    for a division that faults. Shift counts are taken modulo 64. -/
def binaryResult (a b : BitVec 64) : X86_64Opcode → Option (BitVec 64)
  | .add => some (a + b)
  | .sub => some (a - b)
  | .mul => some (a * b)
  | .umulh => some (BitVec.ofNat 64 (a.toNat * b.toNat / 2 ^ 64))
  | .sdiv => if b = 0 ∨ a = BitVec.intMin 64 ∧ b = -1#64 then none else some (a.sdiv b)
  | .udiv => if b = 0 then none else some (a / b)
  | .and => some (a &&& b)
  | .or => some (a ||| b)
  | .xor => some (a ^^^ b)
  | .shl => some (a <<< (b.toNat % 64))
  | .lsr => some (a >>> (b.toNat % 64))
  | _ => none

/-- The flags a comparison leaves. -/
def compareFlags (a b : BitVec 64) : Flags where
  carry := a.ult b
  zero := a == b
  sign := (a - b).msb
  overflow := decide ((a - b).toInt ≠ a.toInt - b.toInt)
  parity := evenParity (a - b)

/-- The comparison a condition code names. -/
def ConditionCode.compares (a b : BitVec 64) : ConditionCode → Bool
  | .o => decide ((a - b).toInt ≠ a.toInt - b.toInt)
  | .no => decide ((a - b).toInt = a.toInt - b.toInt)
  | .b => a.ult b
  | .ae => b.ule a
  | .e => a == b
  | .ne => a != b
  | .be => a.ule b
  | .a => b.ult a
  | .s => (a - b).msb
  | .ns => !(a - b).msb
  | .p => evenParity (a - b)
  | .np => !evenParity (a - b)
  | .l => a.slt b
  | .ge => b.sle a
  | .le => a.sle b
  | .g => b.slt a

/-- The access size of `memRow`. -/
def accessSize (size : Nat) : Size :=
  if size = 8 then .qword else if size = 4 then .dword else if size = 2 then .word else .byte

/-- A load or store of `[base + imm]`. -/
def performAccess (s : State) (size : Nat) (isStore : Bool) (rt base imm : Nat) : State :=
  let a := s.regs base + BitVec.ofNat 64 imm
  if isStore then s.store (accessSize size) a (s.regs rt)
  else s.setReg rt (s.load (accessSize size) a)

/-- What the op says: the state after it, from the values before it. -/
def perform (inst : Inst) (s : State) : Option State :=
  match memRow inst.opcode, inst.opcode with
  | some (size, isStore, onSp), _ =>
      (inst.num .rd).bind fun rt =>
        (if onSp then some 4 else inst.num .rn).bind fun base =>
          inst.imm.map fun imm => performAccess s size isStore rt base imm
  | none, .movImm =>
      (inst.num .rd).bind fun rd => inst.imm.map fun imm => s.setReg rd (BitVec.ofNat 64 imm)
  | none, .mov =>
      (inst.num .rd).bind fun rd => (inst.num .rm).map fun rm => s.setReg rd (s.regs rm)
  | none, .cmp =>
      (inst.num .rn).bind fun rn => (inst.num .rm).map fun rm =>
        s.withFlags (some (compareFlags (s.regs rn) (s.regs rm)))
  | none, .cset =>
      (inst.num .rd).bind fun rd => inst.cond.bind fun cond => s.flags.map fun flags =>
        s.setReg rd (if condHolds cond.encoding flags then 1 else 0)
  | none, .push =>
      (inst.num .rd).map fun rt =>
        (s.setReg 4 (s.regs 4 - 8)).store .qword (s.regs 4 - 8) (s.regs rt)
  | none, .pop =>
      (inst.num .rd).map fun rt =>
        (s.setReg 4 (s.regs 4 + 8)).setReg rt (s.load .qword (s.regs 4))
  | none, .subSpImm => inst.imm.map fun imm => s.setReg 4 (s.regs 4 - BitVec.ofNat 64 imm)
  | none, .addSpImm => inst.imm.map fun imm => s.setReg 4 (s.regs 4 + BitVec.ofNat 64 imm)
  | none, .addSpOffset =>
      (inst.num .rd).bind fun rd => inst.imm.map fun imm =>
        s.setReg rd (s.regs 4 + BitVec.ofNat 64 imm)
  | none, .ldrStackArg =>
      (inst.num .rd).bind fun rd => inst.imm.map fun imm =>
        s.setReg rd (s.load .qword (s.regs 4 + 8 + BitVec.ofNat 64 imm))
  | none, opcode =>
      (inst.num .rd).bind fun rd => (inst.num .rn).bind fun rn => (inst.num .rm).bind fun rm =>
        (binaryResult (s.regs rn) (s.regs rm) opcode).map fun value => s.setReg rd value

/-- The registers an op's expansion uses besides its operands: `rax` and `rdx`
    for division and the widening multiply, `rcx` for shift counts. -/
def clobbers : X86_64Opcode → List Nat
  | .umulh | .sdiv | .udiv => [0, 2]
  | .shl | .lsr => [1]
  | _ => []

/-- The ops that leave the flags as they say. -/
def keepsFlags : X86_64Opcode → Bool
  | .add | .sub | .mul | .umulh | .sdiv | .udiv | .and | .or | .xor | .shl | .lsr
  | .subSpImm | .addSpImm => false
  | _ => true

/-- The state `s'` is the op's `t` but for the clobbers. -/
structure Agrees (opcode : X86_64Opcode) (t s' : State) : Prop where
  regs : ∀ r, r ∉ clobbers opcode → s'.regs r = t.regs r
  mem : s'.mem = t.mem
  flags : keepsFlags opcode = true → s'.flags = t.flags

theorem Agrees.refl (opcode : X86_64Opcode) (t : State) : Agrees opcode t t :=
  ⟨fun _ _ => rfl, rfl, fun _ => rfl⟩

/-- The ops without a control transfer and without a reference. -/
def isStraight : X86_64Opcode → Bool
  | .adrLiteral | .adrFunction | .ret | .ud2 | .call | .callReg | .jmp | .jcc | .testJnz => false
  | _ => true

/-! ## Comparisons -/

/-- The processor's flags of `cmp` are the flags of the comparison. -/
theorem subFlags_eq (a b : BitVec 64) : subFlags a b = compareFlags a b := by
  have hover : (a.msb != b.msb && (a - b).msb != a.msb) =
      decide ((a - b).toInt ≠ a.toInt - b.toInt) := by
    rw [show a.msb = decide (a.toInt < 0) from BitVec.msb_eq_toInt,
      show b.msb = decide (b.toInt < 0) from BitVec.msb_eq_toInt,
      show (a - b).msb = decide ((a - b).toInt < 0) from BitVec.msb_eq_toInt]
    rcases toInt_sub_cases a b with h | ⟨h1, h2, h3, h4⟩ | ⟨h1, h2, h3, h4⟩
    · rw [h, decide_eq_false (show ¬ a.toInt - b.toInt ≠ a.toInt - b.toInt from fun h => h rfl)]
      by_cases ha : a.toInt < 0 <;> by_cases hb : b.toInt < 0
      · rw [decide_eq_true ha, decide_eq_true hb]
        rfl
      · rw [decide_eq_true ha, decide_eq_true (show a.toInt - b.toInt < 0 by omega)]
        simp
      · rw [decide_eq_false ha, decide_eq_false (show ¬ a.toInt - b.toInt < 0 by omega)]
        simp
      · rw [decide_eq_false ha, decide_eq_false hb]
        rfl
    · rw [decide_eq_true (show (a - b).toInt ≠ a.toInt - b.toInt by omega), decide_eq_true h1,
        decide_eq_false (show ¬ b.toInt < 0 by omega),
        decide_eq_false (show ¬ (a - b).toInt < 0 by omega)]
      rfl
    · rw [decide_eq_true (show (a - b).toInt ≠ a.toInt - b.toInt by omega), decide_eq_true h2,
        decide_eq_true h3, decide_eq_false (show ¬ a.toInt < 0 by omega)]
      rfl
  have hzero : (a - b == 0) = (a == b) := by
    rw [Bool.eq_iff_iff, beq_iff_eq, beq_iff_eq, BitVec.sub_eq_iff_eq_add]
    simp
  simp only [subFlags, flagsOf, compareFlags, hover, hzero]

/-- Every condition code reads the comparison it names off the flags. -/
theorem condHolds_compareFlags (a b : BitVec 64) (c : ConditionCode) :
    condHolds c.encoding (compareFlags a b) = c.compares a b := by
  have hlt := sign_bne_overflow a b
  have hle := beq_or_slt a b
  have hule := ult_or_beq a b
  -- The even codes by what they read, the odd ones as their negations.
  cases c with
  | o => exact Bool.bne_false _
  | no =>
      show (decide _ != true) = decide _
      rw [Bool.bne_true]
      simp
  | b => exact Bool.bne_false _
  | ae => exact (Bool.bne_true _).trans (BitVec.ule_eq_not_ult b a).symm
  | e => exact Bool.bne_false _
  | ne => exact Bool.bne_true _
  | be => exact (Bool.bne_false _).trans hule
  | a =>
      refine (Bool.bne_true _).trans ?_
      show (!(a.ult b || a == b)) = b.ult a
      rw [hule, BitVec.ule_eq_not_ult, Bool.not_not]
  | s => exact Bool.bne_false _
  | ns => exact Bool.bne_true _
  | p => exact Bool.bne_false _
  | np => exact Bool.bne_true _
  | l => exact (Bool.bne_false _).trans hlt
  | ge =>
      refine (Bool.bne_true _).trans ?_
      show (!((a - b).msb != decide ((a - b).toInt ≠ a.toInt - b.toInt))) = b.sle a
      rw [hlt, BitVec.sle_eq_not_slt]
  | le =>
      refine (Bool.bne_false _).trans ?_
      show (a == b || ((a - b).msb != decide ((a - b).toInt ≠ a.toInt - b.toInt))) = a.sle b
      rw [hlt, hle]
  | g =>
      refine (Bool.bne_true _).trans ?_
      show (!(a == b || ((a - b).msb != decide ((a - b).toInt ≠ a.toInt - b.toInt)))) = b.slt a
      rw [hlt, hle, BitVec.sle_eq_not_slt, Bool.not_not]

/-! ## Decoding what the encoder emits -/

@[simp] theorem parseRex_rex (w r x b : Bool) : parseRex (rex w r x b) = some ⟨w, r, x, b⟩ := by
  cases w <;> cases r <;> cases x <;> cases b <;> decide

theorem rex_ne_opsize (w r x b : Bool) : rex w r x b ≠ 0x66 := by
  cases w <;> cases r <;> cases x <;> cases b <;> decide

theorem decode_rex (w r x b : Bool) (rest : List UInt8) :
    decode (rex w r x b :: rest) =
      decodeOpcode (if w then .qword else .dword) ⟨w, r, x, b⟩ true rest := by
  rw [decode, if_neg (rex_ne_opsize w r x b), decodeRex, parseRex_rex]
  rfl

theorem decode_opsize_rex (r x b : Bool) (rest : List UInt8) :
    decode (0x66 :: rex false r x b :: rest) =
      decodeOpcode .word ⟨false, r, x, b⟩ true rest := by
  rw [decode, if_pos rfl, decodeRex, parseRex_rex]
  rfl

/-- The fields of a ModRM byte. -/
theorem modrm_fields (mode reg rm : UInt8) (hmode : mode.toNat < 4) (hreg : reg.toNat < 8)
    (hrm : rm.toNat < 8) :
    (modrm mode reg rm).toNat / 64 = mode.toNat ∧
      (modrm mode reg rm).toNat / 8 % 8 = reg.toNat ∧
      (modrm mode reg rm).toNat % 8 = rm.toNat := by
  have hall : ∀ m : Fin 4, ∀ r b : Fin 8,
      (modrm (UInt8.ofNat m) (UInt8.ofNat r) (UInt8.ofNat b)).toNat / 64 = m ∧
      (modrm (UInt8.ofNat m) (UInt8.ofNat r) (UInt8.ofNat b)).toNat / 8 % 8 = r ∧
      (modrm (UInt8.ofNat m) (UInt8.ofNat r) (UInt8.ofNat b)).toNat % 8 = b := by decide
  have h := hall ⟨_, hmode⟩ ⟨_, hreg⟩ ⟨_, hrm⟩
  simpa using h

theorem low_toNat (n : UInt8) : (n &&& 7).toNat = n.toNat % 8 := by
  rw [UInt8.toNat_and]
  exact Nat.and_two_pow_sub_one_eq_mod n.toNat 3

theorem low_lt (n : UInt8) : (n &&& 7).toNat < 8 := by
  rw [low_toNat]
  omega

/-- A register number is its low bits and its extension bit. -/
theorem extend_low {n : UInt8} (h : n.toNat < 16) :
    extend (decide (n ≥ 8)) (n &&& 7).toNat = n.toNat := by
  rw [low_toNat, extend]
  by_cases h8 : 8 ≤ n.toNat
  · have hge : n ≥ 8 := h8
    rw [decide_eq_true hge, if_pos rfl]
    omega
  · have hlt : ¬ n ≥ 8 := h8
    rw [decide_eq_false hlt, if_neg (by decide)]
    omega

theorem decodeRm_reg (w r b : Bool) {reg rm : UInt8} (hreg : reg.toNat < 8)
    (hrm : rm.toNat < 8) (rest : List UInt8) :
    decodeRm ⟨w, r, false, b⟩ (modrm 0b11 reg rm :: rest) =
      some (extend r reg.toNat, .reg (extend b rm.toNat), rest) := by
  obtain ⟨hm, hr, hb⟩ := modrm_fields 0b11 reg rm (by decide) hreg hrm
  simp only [decodeRm, hm, hr, hb]
  rfl

theorem takeSigned_toLE {disp : Nat} (h : disp < 2 ^ 31) (rest : List UInt8) :
    takeSigned 4 (toLE 4 disp ++ rest) = some ((disp : Int), rest) := by
  have hlen : (toLE 4 disp).length = 4 := length_toLE 4 disp
  have hval : ofLE (toLE 4 disp) = disp := ofLE_toLE_of_lt (by omega)
  rw [takeSigned, if_pos (by rw [List.length_append, hlen]; omega), List.take_left' hlen,
    List.drop_left' hlen, signed, hval, if_pos (by simpa using h)]

/-- The memory operand of a base register, with or without a SIB byte. -/
theorem decodeRm_mem (w r : Bool) (reg : UInt8) {base : UInt8} {disp : Nat} (hbase : base.toNat < 16)
    (hdisp : disp < 2 ^ 31) (rest : List UInt8) :
    decodeRm ⟨w, r, false, decide (base ≥ 8)⟩ (emitMemOperand reg base disp ++ rest) =
      some (extend r (reg &&& 7).toNat, .mem ⟨some base.toNat, none, disp⟩, rest) := by
  have htake := takeSigned_toLE hdisp rest
  have hext := extend_low hbase
  unfold emitMemOperand
  split
  · rename_i h4
    obtain ⟨hm, hr, hb⟩ := modrm_fields 0b10 (reg &&& 7) 0b100
      (by decide) (low_lt reg) (by decide)
    have hsib : extend (decide (base ≥ 8)) (UInt8.toNat 0x24 % 8) = base.toNat := by
      rw [← hext, h4]
      rfl
    simp only [List.cons_append, List.nil_append, decodeRm, hm, hr, hb]
    simp +decide only [decodeSib, takeDisp, htake, if_true, if_false, Option.map_some]
    rw [hsib]
  · rename_i h4
    obtain ⟨hm, hr, hb⟩ := modrm_fields 0b10 (reg &&& 7) (base &&& 7)
      (by decide) (low_lt reg) (low_lt base)
    have hne : ¬ (base &&& 7).toNat = 4 := fun h => h4 (UInt8.toNat_inj.mp h)
    simp only [List.cons_append, List.nil_append, decodeRm, hm, hr, hb, if_neg hne]
    simp +decide only [takeDisp, htake, false_and, if_false, Option.map_some, hext]

/-! ## Running what the encoder emits -/

section Runs

variable {rest : List UInt8} {s s' : State}

theorem runs_movRr {rd rm : UInt8} (hrd : rd.toNat < 16) (hrm : rm.toNat < 16)
    (h : Runs rest (s.setReg rd.toNat (s.regs rm.toNat)) s') :
    Runs (emitMovRr rd rm ++ rest) s s' := by
  have hdec : decode (emitMovRr rd rm ++ rest) =
      some (.mov .qword (.reg rd.toNat) rm.toNat, rest) := by
    have hmod := decodeRm_reg true (decide (rm ≥ 8)) (decide (rd ≥ 8)) (low_lt rm) (low_lt rd) rest
    rw [extend_low hrm, extend_low hrd] at hmod
    rw [emitMovRr, List.cons_append, decode_rex]
    simp +decide only [List.cons_append, List.nil_append, decodeOpcode, hmod, if_true, if_false,
      Option.bind_some]
  exact .step hdec rfl h

/-- A qword ALU op between registers. -/
theorem execAlu_reg (op : AluOp) (dst : Nat) (src : BitVec 64) (s : State) :
    execAlu op .qword (.reg dst) src s =
      (if op.writes then s.setReg dst (op.compute (s.regs dst) src).1 else s).withFlags
        (some (op.compute (s.regs dst) src).2) := by
  have hread : (Rm.reg dst).read s .qword = s.regs dst := Size.low_qword _
  simp only [execAlu, hread]
  show State.withFlags (if op.writes then s.setReg dst ((op.compute
      ((s.regs dst).setWidth 64) (src.setWidth 64)).1.setWidth 64) else s)
        (some (op.compute ((s.regs dst).setWidth 64) (src.setWidth 64)).2) = _
  rw [BitVec.setWidth_eq, BitVec.setWidth_eq, BitVec.setWidth_eq]

theorem runs_alu {opcode : UInt8} {op : AluOp} (hop : aluOf opcode = some op)
    {dst src : UInt8} (hdst : dst.toNat < 16) (hsrc : src.toNat < 16)
    (h : Runs rest (execAlu op .qword (.reg dst.toNat) (s.regs src.toNat) s) s') :
    Runs (emitAlu opcode dst src ++ rest) s s' := by
  have hdec : decode (emitAlu opcode dst src ++ rest) =
      some (.alu op .qword (.reg dst.toNat) src.toNat, rest) := by
    have hmod := decodeRm_reg true (decide (src ≥ 8)) (decide (dst ≥ 8)) (low_lt src)
      (low_lt dst) rest
    rw [extend_low hsrc, extend_low hdst] at hmod
    rw [emitAlu, List.cons_append, decode_rex]
    unfold aluOf at hop
    split_ifs at hop <;> rename_i hcode <;> subst hcode <;>
      simp +decide only [List.cons_append, List.nil_append, decodeOpcode, hmod, if_true,
        if_false, Option.bind_some, aluOf, Option.map_some] <;>
      simp only [Option.some.injEq] at hop <;> rw [hop]
  exact .step hdec rfl h

/-- One instruction of the group `f7` on a register. -/
theorem runs_f7 {ext rm : UInt8} (hext : ext.toNat < 8) (hrm : rm.toNat < 16) {i : Instr}
    (hi : groupF7 .qword (.reg rm.toNat) ext.toNat = some i) {s1 : State}
    (hexec : exec s i = some s1) (h : Runs rest s1 s') :
    Runs (emitGroup 0xf7 ext rm ++ rest) s s' := by
  have hdec : decode (emitGroup 0xf7 ext rm ++ rest) = some (i, rest) := by
    have hmod := decodeRm_reg true false (decide (rm ≥ 8)) hext (low_lt rm) rest
    rw [extend_low hrm] at hmod
    have hlow : extend false ext.toNat % 8 = ext.toNat := Nat.mod_eq_of_lt hext
    rw [emitGroup, List.cons_append, decode_rex]
    simp +decide only [List.cons_append, List.nil_append, decodeOpcode, hmod, if_true, if_false,
      Option.bind_some, hlow, hi, Option.map_some]
  exact .step hdec hexec h

theorem runs_d3 {ext rd : UInt8} (hext : ext.toNat < 8) (hrd : rd.toNat < 16) {i : Instr}
    (hi : groupD3 .qword (.reg rd.toNat) ext.toNat = some i) {s1 : State}
    (hexec : exec s i = some s1) (h : Runs rest s1 s') :
    Runs (emitGroup 0xd3 ext rd ++ rest) s s' := by
  have hdec : decode (emitGroup 0xd3 ext rd ++ rest) = some (i, rest) := by
    have hmod := decodeRm_reg true false (decide (rd ≥ 8)) hext (low_lt rd) rest
    rw [extend_low hrd] at hmod
    have hlow : extend false ext.toNat % 8 = ext.toNat := Nat.mod_eq_of_lt hext
    rw [emitGroup, List.cons_append, decode_rex]
    simp +decide only [List.cons_append, List.nil_append, decodeOpcode, hmod, if_true, if_false,
      Option.bind_some, hlow, hi, Option.map_some]
  exact .step hdec hexec h

theorem runs_imul {rd src : UInt8} (hrd : rd.toNat < 16) (hsrc : src.toNat < 16)
    (h : Runs rest ((s.setReg rd.toNat (s.regs rd.toNat * s.regs src.toNat)).withFlags none)
      s') :
    Runs ([rex true (decide (rd ≥ 8)) false (decide (src ≥ 8)), 0x0f, 0xaf,
      modrm 0b11 (rd &&& 7) (src &&& 7)] ++ rest) s s' := by
  have hdec : decode ([rex true (decide (rd ≥ 8)) false (decide (src ≥ 8)), 0x0f, 0xaf,
      modrm 0b11 (rd &&& 7) (src &&& 7)] ++ rest) =
        some (.imul rd.toNat (.reg src.toNat), rest) := by
    have hmod := decodeRm_reg true (decide (rd ≥ 8)) (decide (src ≥ 8)) (low_lt rd)
      (low_lt src) rest
    rw [extend_low hrd, extend_low hsrc] at hmod
    rw [List.cons_append, decode_rex]
    simp +decide only [List.cons_append, List.nil_append, decodeOpcode, decodeTwo, hmod,
      if_true, if_false, Option.bind_some]
  have hread : (Rm.reg src.toNat).read s .qword = s.regs src.toNat := Size.low_qword _
  exact .step hdec (by simp only [exec, hread]) h

theorem runs_cqo (h : Runs rest (s.setReg 2
      (if (s.regs 0).msb then BitVec.allOnes 64 else 0)) s') :
    Runs ([0x48, 0x99] ++ rest) s s' := by
  have hrex : (0x48 : UInt8) = rex true false false false := by decide
  have hdec : decode ([0x48, 0x99] ++ rest) = some (.cqo, rest) := by
    rw [hrex, List.cons_append, decode_rex]
    simp +decide only [List.cons_append, List.nil_append, decodeOpcode, if_true, if_false]
  exact .step hdec rfl h

/-- `xor edx, edx` clears all of `rdx`. -/
theorem runs_xorEdx (h : ∀ flags, Runs rest ((s.setReg 2 0).withFlags flags) s') :
    Runs ([0x31, 0xd2] ++ rest) s s' := by
  have hdec : decode ([0x31, 0xd2] ++ rest) =
      some (.alu .xor .dword (.reg 2) 2, rest) := by
    have hparse : parseRex 0x31 = none := by decide
    have hmod : decodeRm {} (0xd2 :: rest) = some (2, .reg 2, rest) := by
      simp +decide only [decodeRm, extend, if_true]
      rfl
    rw [List.cons_append, decode, if_neg (by decide), decodeRex, hparse]
    simp +decide only [operandSize, List.cons_append, List.nil_append, decodeOpcode, hmod, if_false,
      Option.bind_some, aluOf, if_true, Option.map_some]
  have hself : (s.regs 2).setWidth Size.dword.bits = ((Rm.reg 2).read s .dword).setWidth
      Size.dword.bits := by
    show _ = (((s.regs 2).setWidth Size.dword.bits).setWidth 64).setWidth Size.dword.bits
    rw [BitVec.setWidth_setWidth_of_le _ (by decide), BitVec.setWidth_setWidth_of_le _ (le_refl _)]
  refine .step hdec rfl ?_
  have hstate : execAlu .xor .dword (.reg 2) (s.regs 2) s =
      (s.setReg 2 0).withFlags (execAlu .xor .dword (.reg 2) (s.regs 2) s).flags := by
    simp only [execAlu, ← hself, AluOp.compute, BitVec.xor_self, AluOp.writes, if_true,
      Rm.write, State.writeReg]
    simp only [Size.low, BitVec.setWidth_zero]
    rfl
  rw [hstate]
  exact h _

theorem runs_movImm {rd : UInt8} (hrd : rd.toNat < 16) (imm : Nat)
    (h : Runs rest (s.setReg rd.toNat (BitVec.ofNat 64 imm)) s') :
    Runs ([rex true false false (decide (rd ≥ 8)), 0xb8 + (rd &&& 7)] ++ toLE 8 imm ++ rest)
      s s' := by
  have hlen : (toLE 8 imm).length = 8 := length_toLE 8 imm
  have hop : ∀ r : Fin 8, (0xb8 + UInt8.ofNat r : UInt8) ≠ 0x0f ∧
      (0xb8 + UInt8.ofNat r : UInt8) >>> 3 = 0x17 ∧
      (0xb8 + UInt8.ofNat r : UInt8).toNat % 8 = r := by decide
  obtain ⟨h1, h2, h3⟩ := hop ⟨_, low_lt rd⟩
  simp only [UInt8.ofNat_toNat] at h1 h2 h3
  have hval : BitVec.ofNat 64 (ofLE (toLE 8 imm)) = BitVec.ofNat 64 imm := by
    apply BitVec.eq_of_toNat_eq
    rw [BitVec.toNat_ofNat, BitVec.toNat_ofNat, ofLE_toLE]
    exact Nat.mod_mod _ _
  have hdec : decode ([rex true false false (decide (rd ≥ 8)), 0xb8 + (rd &&& 7)] ++
      toLE 8 imm ++ rest) = some (.movImm rd.toNat (BitVec.ofNat 64 imm), rest) := by
    rw [List.append_assoc, List.cons_append, decode_rex]
    have hlen' : 8 ≤ (toLE 8 imm ++ rest).length := by
      rw [List.length_append, hlen]
      omega
    simp only [if_true, List.cons_append, List.nil_append, decodeOpcode, if_neg h1, h2, h3,
      hlen', and_self, List.take_left' hlen, List.drop_left' hlen, hval, extend_low hrd]
  exact .step hdec rfl h

/-! ### Memory -/

/-- A loaded value fits its size. -/
theorem low_load (s : State) (size : Size) (a : BitVec 64) :
    size.low (s.load size a) = s.load size a := by
  have hlt := ofLE_lt ((List.range size.bytes).map fun i => s.mem (a + BitVec.ofNat 64 i))
  rw [List.length_map, List.length_range] at hlt
  have hpow : 256 ^ size.bytes = 2 ^ size.bits := by
    rw [Size.bits, Nat.pow_mul]
  have hbits : (2 : Nat) ^ size.bits ≤ 2 ^ 64 := by
    cases size <;> decide
  apply BitVec.eq_of_toNat_eq
  simp only [Size.low, BitVec.toNat_setWidth, State.load, BitVec.toNat_ofNat]
  rw [hpow] at hlt
  rw [Nat.mod_eq_of_lt (a := ofLE _) (by omega), Nat.mod_eq_of_lt (a := ofLE _) hlt,
    Nat.mod_eq_of_lt (a := ofLE _) (by omega)]

theorem address_base (s : State) (base disp : Nat) :
    MemRef.address ⟨some base, none, disp⟩ s = s.regs base + BitVec.ofNat 64 disp := by
  simp [MemRef.address]

theorem runs_store {size : Nat} (hsize : size = 8 ∨ size = 4 ∨ size = 2 ∨ size = 1)
    {rt base : UInt8} {disp : Nat} (hrt : rt.toNat < 16) (hbase : base.toNat < 16)
    (hdisp : disp < 2 ^ 31)
    (h : Runs rest (performAccess s size true rt.toNat base.toNat disp) s') :
    Runs (emitStore size rt base disp ++ rest) s s' := by
  have hmod := fun w => decodeRm_mem w (decide (rt ≥ 8)) rt hbase hdisp rest
  rw [extend_low hrt] at hmod
  have hdec : decode (emitStore size rt base disp ++ rest) =
      some (.mov (accessSize size) (.mem ⟨some base.toNat, none, disp⟩) rt.toNat, rest) := by
    rcases hsize with rfl | rfl | rfl | rfl
    all_goals
      simp +decide only [emitStore, if_true, if_false, List.cons_append, List.nil_append,
        decode_rex, decode_opsize_rex, decodeOpcode, hmod, Option.bind_some, isLowByte,
        Bool.true_or, Bool.and_self, accessSize]
  refine .step hdec rfl ?_
  show Runs rest (s.store _ (MemRef.address _ s) _) s'
  rw [address_base]
  exact h

theorem runs_load {size : Nat} (hsize : size = 8 ∨ size = 4 ∨ size = 2 ∨ size = 1)
    {rt base : UInt8} {disp : Nat} (hrt : rt.toNat < 16) (hbase : base.toNat < 16)
    (hdisp : disp < 2 ^ 31)
    (h : Runs rest (performAccess s size false rt.toNat base.toNat disp) s') :
    Runs (emitLoad size rt base disp ++ rest) s s' := by
  have hmod := fun w => decodeRm_mem w (decide (rt ≥ 8)) rt hbase hdisp rest
  rw [extend_low hrt] at hmod
  have haddress := address_base s base.toNat disp
  have hrun : ∀ i : Instr, decode (emitLoad size rt base disp ++ rest) = some (i, rest) →
      exec s i = some (performAccess s size false rt.toNat base.toNat disp) →
      Runs (emitLoad size rt base disp ++ rest) s s' :=
    fun i hdec hexec => .step hdec hexec h
  -- 32-bit loads clear the upper half, narrower ones are `movzx`.
  rcases hsize with rfl | rfl | rfl | rfl
  · apply hrun (.load .qword rt.toNat (.mem ⟨some base.toNat, none, disp⟩))
    · simp +decide only [emitLoad, if_true, if_false, List.cons_append, List.nil_append,
        decode_rex, decodeOpcode, hmod, Option.bind_some]
    · simp only [exec, Rm.read, haddress]
      rfl
  · apply hrun (.load .dword rt.toNat (.mem ⟨some base.toNat, none, disp⟩))
    · simp +decide only [emitLoad, if_true, if_false, List.cons_append, List.nil_append,
        decode_rex, decodeOpcode, hmod, Option.bind_some]
    · simp only [exec, Rm.read, haddress, State.writeReg, low_load]
      rfl
  · apply hrun (.movzx .word .qword rt.toNat (.mem ⟨some base.toNat, none, disp⟩))
    · simp +decide only [emitLoad, if_true, if_false, List.cons_append, List.nil_append,
        decode_rex, decodeOpcode, decodeTwo, hmod, Option.map_some]
    · simp only [exec, Rm.read, haddress]
      rfl
  · apply hrun (.movzx .byte .qword rt.toNat (.mem ⟨some base.toNat, none, disp⟩))
    · simp +decide only [emitLoad, if_true, if_false, List.cons_append, List.nil_append,
        decode_rex, decodeOpcode, decodeTwo, hmod, Option.bind_some, isLowByte]
    · simp only [exec, Rm.read, haddress]
      rfl

theorem runs_lea {rd : UInt8} {disp : Nat} (hrd : rd.toNat < 16) (hdisp : disp < 2 ^ 31)
    (h : Runs rest (s.setReg rd.toNat (s.regs 4 + BitVec.ofNat 64 disp)) s') :
    Runs ([rex true (decide (rd ≥ 8)) false false, 0x8d] ++ emitMemOperand rd 4 disp ++ rest)
      s s' := by
  have hmod := decodeRm_mem true (decide (rd ≥ 8)) rd (show (4 : UInt8).toNat < 16 by decide)
    hdisp rest
  rw [extend_low hrd] at hmod
  have hdec : decode ([rex true (decide (rd ≥ 8)) false false, 0x8d] ++
      emitMemOperand rd 4 disp ++ rest) =
        some (.lea .qword rd.toNat ⟨some 4, none, disp⟩, rest) := by
    rw [List.append_assoc, List.cons_append, decode_rex]
    simp +decide only [if_true, List.cons_append, List.nil_append, decodeOpcode, if_false]
    rw [show decodeRm ⟨true, decide (rd ≥ 8), false, false⟩ (emitMemOperand rd 4 disp ++ rest) =
      some (rd.toNat, .mem ⟨some 4, none, disp⟩, rest) from hmod]
    rfl
  refine .step hdec rfl ?_
  show Runs rest (s.setReg _ (MemRef.address _ s)) s'
  rw [address_base]
  exact h

/-- `add rsp, imm32` and `sub rsp, imm32`. -/
theorem runs_spImm {modrmByte : UInt8} {op : AluOp} {bytes : Nat}
    (hop : decodeRm ⟨true, false, false, false⟩ (modrmByte :: (toLE 4 bytes ++ rest)) =
      some (if op = .sub then 5 else 0, .reg 4, toLE 4 bytes ++ rest))
    (hbytes : bytes < 2 ^ 31) (hcases : op = .add ∨ op = .sub)
    (h : Runs rest ((s.setReg 4 (op.compute (s.regs 4) (BitVec.ofNat 64 bytes)).1).withFlags
      (some (op.compute (s.regs 4) (BitVec.ofNat 64 bytes)).2)) s') :
    Runs ([0x48, 0x81, modrmByte] ++ toLE 4 bytes ++ rest) s s' := by
  have hrex : (0x48 : UInt8) = rex true false false false := by decide
  have htake := takeSigned_toLE hbytes rest
  have hdec : decode ([0x48, 0x81, modrmByte] ++ toLE 4 bytes ++ rest) =
      some (.aluImm op .qword (.reg 4) bytes, rest) := by
    rw [hrex, List.append_assoc, List.cons_append, decode_rex]
    rcases hcases with rfl | rfl
    all_goals
      simp +decide only [if_true, List.cons_append, List.nil_append, decodeOpcode, if_false,
        hop, Option.bind_some, group81, htake, Option.map_some]
  refine .step hdec rfl ?_
  rw [execAlu_reg]
  have hwrites : op.writes = true := by
    rcases hcases with rfl | rfl <;> rfl
  have hval : BitVec.ofInt 64 (bytes : Int) = BitVec.ofNat 64 bytes := BitVec.ofInt_natCast ..
  rw [hwrites, if_pos rfl, hval]
  exact h

/-! ### Flags and the stack -/

/-- A byte written into a register reads back as itself. -/
theorem byte_low_merge (v x : BitVec 64) :
    Size.byte.low ((v &&& ~~~ 0xff#64) ||| Size.byte.low x) = Size.byte.low x := by
  have hmask : ∀ j : Fin 8, (0xff#64).getLsbD j = true := by decide
  show BitVec.setWidth 64 (BitVec.setWidth 8 ((v &&& ~~~ 0xff#64) |||
    BitVec.setWidth 64 (BitVec.setWidth 8 x))) = BitVec.setWidth 64 (BitVec.setWidth 8 x)
  congr 1
  apply BitVec.eq_of_getLsbD_eq
  intro i hi
  have hbit := hmask ⟨i, hi⟩
  have hi64 : i < 64 := by omega
  simp only [BitVec.getLsbD_setWidth, BitVec.getLsbD_or, BitVec.getLsbD_and,
    BitVec.getLsbD_not, hi, hi64, decide_true, Bool.true_and]
  rw [show (0xff#64).getLsbD i = true from hbit]
  simp

theorem setReg_setReg (s : State) (n : Nat) (a b : BitVec 64) :
    (s.setReg n a).setReg n b = s.setReg n b := by
  simp only [State.setReg, State.mk.injEq, and_self, and_true]
  funext m
  by_cases hm : m = n
  · simp [hm]
  · simp [hm]

theorem movzx_after_byte (s : State) (n : Nat) {value : BitVec 64}
    (hvalue : Size.byte.low value = value) :
    (s.writeReg .byte n value).setReg n (Size.byte.low ((s.writeReg .byte n value).regs n)) =
      s.setReg n value := by
  have hlow : Size.byte.low ((s.writeReg .byte n value).regs n) = value := by
    simp only [State.writeReg, State.setReg_regs_self]
    rw [byte_low_merge, hvalue]
  rw [hlow]
  exact setReg_setReg s n _ value

/-- `setcc` leaves a byte, `movzx` clears the rest. -/
theorem runs_cset {rd : UInt8} (hrd : rd.toNat < 16) (cond : ConditionCode) {flags : Flags}
    (hflags : s.flags = some flags)
    (h : Runs rest (s.setReg rd.toNat (if condHolds cond.encoding flags then 1 else 0)) s') :
    Runs ([rex false false false (decide (rd ≥ 8)), 0x0f, 0x90 + UInt8.ofNat cond.encoding,
      modrm 0b11 0 (rd &&& 7), rex true (decide (rd ≥ 8)) false (decide (rd ≥ 8)), 0x0f, 0xb6,
      modrm 0b11 (rd &&& 7) (rd &&& 7)] ++ rest) s s' := by
  have hset := decodeRm_reg false false (decide (rd ≥ 8)) (show (0 : UInt8).toNat < 8 by decide)
    (low_lt rd)
    ([rex true (decide (rd ≥ 8)) false (decide (rd ≥ 8)), 0x0f, 0xb6,
      modrm 0b11 (rd &&& 7) (rd &&& 7)] ++ rest)
  have hext := decodeRm_reg true (decide (rd ≥ 8)) (decide (rd ≥ 8)) (low_lt rd) (low_lt rd) rest
  rw [extend_low hrd] at hset hext
  have hop : (0x90 + UInt8.ofNat cond.encoding : UInt8) ≠ 0xaf ∧
      (0x90 + UInt8.ofNat cond.encoding : UInt8) ≠ 0xb6 ∧
      (0x90 + UInt8.ofNat cond.encoding : UInt8) ≠ 0xb7 ∧
      (0x90 + UInt8.ofNat cond.encoding : UInt8) >>> 4 = 9 ∧
      (0x90 + UInt8.ofNat cond.encoding : UInt8).toNat % 16 = cond.encoding := by
    cases cond <;> decide
  obtain ⟨h1, h2, h3, h4, h5⟩ := hop
  have hfirst : decode ([rex false false false (decide (rd ≥ 8)), 0x0f,
      0x90 + UInt8.ofNat cond.encoding, modrm 0b11 0 (rd &&& 7),
      rex true (decide (rd ≥ 8)) false (decide (rd ≥ 8)), 0x0f, 0xb6,
      modrm 0b11 (rd &&& 7) (rd &&& 7)] ++ rest) =
      some (.setcc cond.encoding (.reg rd.toNat),
        [rex true (decide (rd ≥ 8)) false (decide (rd ≥ 8)), 0x0f, 0xb6,
          modrm 0b11 (rd &&& 7) (rd &&& 7)] ++ rest) := by
    simp only [List.cons_append, List.nil_append] at hset ⊢
    rw [decode_rex]
    simp only [decodeOpcode, if_true, decodeTwo, if_neg h1, if_neg h2, if_neg h3, if_pos h4,
      hset, Option.bind_some, isLowByte, Bool.true_or, h5]
  have hsecond : decode ([rex true (decide (rd ≥ 8)) false (decide (rd ≥ 8)), 0x0f, 0xb6,
      modrm 0b11 (rd &&& 7) (rd &&& 7)] ++ rest) =
      some (.movzx .byte .qword rd.toNat (.reg rd.toNat), rest) := by
    rw [List.cons_append, decode_rex]
    simp +decide only [if_true, List.cons_append, List.nil_append, decodeOpcode, decodeTwo,
      if_false, hext, Option.bind_some, isLowByte, Bool.true_or]
  refine .step hfirst (by simp only [exec, hflags, Option.map_some]; rfl) ?_
  refine .step hsecond rfl ?_
  have hbit : ∀ p : Bool, Size.byte.low (if p then 1 else 0) = if p then 1 else 0 := by decide
  have hmovzx := movzx_after_byte s rd.toNat (hbit (condHolds cond.encoding flags))
  have hrun : Runs rest ((s.writeReg .byte rd.toNat
      (if condHolds cond.encoding flags then 1 else 0)).setReg rd.toNat
        (Size.byte.low ((s.writeReg .byte rd.toNat
          (if condHolds cond.encoding flags then 1 else 0)).regs rd.toNat))) s' := by
    rw [hmovzx]
    exact h
  exact hrun

theorem runs_push {rt : UInt8} (hrt : rt.toNat < 16)
    (h : Runs rest ((s.setReg 4 (s.regs 4 - 8)).store .qword (s.regs 4 - 8)
      (s.regs rt.toNat)) s') :
    Runs ([rex false false false (decide (rt ≥ 8)), 0x50 + (rt &&& 7)] ++ rest) s s' := by
  have hop : ∀ r : Fin 8, (0x50 + UInt8.ofNat r : UInt8) ≠ 0x0f ∧
      (0x50 + UInt8.ofNat r : UInt8) >>> 3 ≠ 0x17 ∧
      (0x50 + UInt8.ofNat r : UInt8) >>> 3 = 0x0a ∧
      (0x50 + UInt8.ofNat r : UInt8).toNat % 8 = r := by decide
  obtain ⟨h1, h2, h3, h4⟩ := hop ⟨_, low_lt rt⟩
  simp only [UInt8.ofNat_toNat] at h1 h2 h3 h4
  refine .step (i := .push rt.toNat) ?_ rfl h
  rw [List.cons_append, decode_rex]
  simp only [List.cons_append, List.nil_append, decodeOpcode, if_neg h1, if_neg h2, if_pos h3,
    h4, extend_low hrt]

theorem runs_pop {rt : UInt8} (hrt : rt.toNat < 16)
    (h : Runs rest ((s.setReg 4 (s.regs 4 + 8)).setReg rt.toNat
      (s.load .qword (s.regs 4))) s') :
    Runs ([rex false false false (decide (rt ≥ 8)), 0x58 + (rt &&& 7)] ++ rest) s s' := by
  have hop : ∀ r : Fin 8, (0x58 + UInt8.ofNat r : UInt8) ≠ 0x0f ∧
      (0x58 + UInt8.ofNat r : UInt8) >>> 3 ≠ 0x17 ∧
      (0x58 + UInt8.ofNat r : UInt8) >>> 3 ≠ 0x0a ∧
      (0x58 + UInt8.ofNat r : UInt8) >>> 3 = 0x0b ∧
      (0x58 + UInt8.ofNat r : UInt8).toNat % 8 = r := by decide
  obtain ⟨h1, h2, h3, h4, h5⟩ := hop ⟨_, low_lt rt⟩
  simp only [UInt8.ofNat_toNat] at h1 h2 h3 h4 h5
  refine .step (i := .pop rt.toNat) ?_ rfl h
  rw [List.cons_append, decode_rex]
  simp only [List.cons_append, List.nil_append, decodeOpcode, if_neg h1, if_neg h2, if_neg h3,
    if_pos h4, h5, extend_low hrt]

/-! ### Three-address ops -/

theorem toNat_ne {a b : UInt8} (h : a ≠ b) : a.toNat ≠ b.toNat :=
  fun heq => h (UInt8.toNat_inj.mp heq)

theorem withFlags_setReg (s : State) (flags : Option Flags) (n : Nat) (v : BitVec 64) :
    (s.withFlags flags).setReg n v = (s.setReg n v).withFlags flags := rfl

theorem withFlags_withFlags (s : State) (f g : Option Flags) :
    (s.withFlags f).withFlags g = s.withFlags g := rfl

theorem exec_neg_reg (s : State) (n : Nat) :
    exec s (.neg .qword (.reg n)) =
      some ((s.setReg n (0 - s.regs n)).withFlags (some (subFlags 0 (s.regs n)))) := by
  have hread : (Rm.reg n).read s .qword = s.regs n := Size.low_qword _
  simp only [exec, hread]
  show some ((s.setReg n ((0 - (s.regs n).setWidth 64).setWidth 64)).withFlags
    (some (subFlags 0 ((s.regs n).setWidth 64)))) = _
  rw [BitVec.setWidth_eq, BitVec.setWidth_eq]

/-- `rd = rn op rm`, whichever of the registers coincide. -/
theorem runs_aluThree {code : UInt8} {op : AluOp} {commutative : Bool}
    (hop : aluOf code = some op) (hwrites : op.writes = true)
    (hcomm : commutative = true → ∀ a b : BitVec 64, (op.compute a b).1 = (op.compute b a).1)
    (hsub : commutative = false → op = .sub) {rd rn rm : UInt8} (hrd : rd.toNat < 16)
    (hrn : rn.toNat < 16) (hrm : rm.toNat < 16) (s : State) :
    ∃ flags, Runs (emitAluThree code rd rn rm commutative) s
      ((s.setReg rd.toNat (op.compute (s.regs rn.toNat) (s.regs rm.toNat)).1).withFlags
        flags) := by
  unfold emitAluThree
  by_cases hdn : rd = rn
  · subst hdn
    refine ⟨some (op.compute (s.regs rd.toNat) (s.regs rm.toNat)).2, ?_⟩
    rw [if_pos rfl, ← List.append_nil (emitAlu code rd rm)]
    apply runs_alu hop hrd hrm
    rw [execAlu_reg, if_pos hwrites]
    exact .done _
  · rw [if_neg hdn]
    by_cases hdm : rd = rm
    · subst hdm
      rw [if_pos rfl]
      cases commutative with
      | true =>
          refine ⟨some (op.compute (s.regs rd.toNat) (s.regs rn.toNat)).2, ?_⟩
          rw [if_pos rfl]
          apply runs_alu hop hrd hrn
          rw [execAlu_reg, if_pos hwrites, hcomm rfl]
          exact .done _
      | false =>
          -- `rd` holds `rm - rn` after the subtraction, its negation is `rn - rm`.
          obtain rfl := hsub rfl
          have hvalue : 0 - (s.regs rd.toNat - s.regs rn.toNat) =
              s.regs rn.toNat - s.regs rd.toNat := by
            refine (BitVec.zero_sub _).trans ?_
            rw [BitVec.neg_sub, BitVec.add_comm, ← BitVec.sub_eq_add_neg]
          refine ⟨some (subFlags 0 (s.regs rd.toNat - s.regs rn.toNat)), ?_⟩
          rw [if_neg (by decide)]
          apply runs_alu hop hrd hrn
          rw [execAlu_reg, if_pos hwrites, ← List.append_nil (emitGroup 0xf7 3 rd)]
          refine runs_f7 (by decide) hrd rfl (exec_neg_reg _ _) ?_
          rw [State.withFlags_regs, State.setReg_regs_self, withFlags_setReg, setReg_setReg,
            withFlags_withFlags]
          simp only [AluOp.compute, hvalue]
          exact .done _
    · rw [if_neg hdm]
      refine ⟨some (op.compute (s.regs rn.toNat) (s.regs rm.toNat)).2, ?_⟩
      apply runs_movRr hrd hrn
      rw [← List.append_nil (emitAlu code rd rm)]
      apply runs_alu hop hrd hrm
      rw [execAlu_reg, if_pos hwrites, State.setReg_regs_self,
        State.setReg_regs_of_ne _ _ (toNat_ne (Ne.symm hdm)), setReg_setReg]
      exact .done _

theorem runs_mul {rd rn rm : UInt8} (hrd : rd.toNat < 16) (hrn : rn.toNat < 16)
    (hrm : rm.toNat < 16) (s : State) :
    Runs (emitMul rd rn rm) s
      ((s.setReg rd.toNat (s.regs rn.toNat * s.regs rm.toNat)).withFlags none) := by
  unfold emitMul
  by_cases hdn : rd = rn
  · subst hdn
    simp only [true_or, if_true, List.nil_append]
    rw [← List.append_nil [_, _, _, _]]
    exact runs_imul hrd hrm (.done _)
  · by_cases hdm : rd = rm
    · subst hdm
      simp only [or_true, if_true, if_neg hdn, List.nil_append]
      rw [← List.append_nil [_, _, _, _], BitVec.mul_comm]
      exact runs_imul hrd hrn (.done _)
    · rw [if_neg (by tauto), if_neg hdn, if_neg hdm]
      apply runs_movRr hrd hrn
      rw [← List.append_nil [_, _, _, _]]
      apply runs_imul hrd hrm
      rw [State.setReg_regs_self, State.setReg_regs_of_ne _ _ (toNat_ne (Ne.symm hdm)),
        setReg_setReg]
      exact .done _

/-- Operands outside of `rax` and `rdx`. -/
theorem checked_of_ok {mnemonic : String} {operands reserved : List UInt8} {u : Unit}
    (h : checkExpansionOperands mnemonic operands reserved = .ok u) :
    ∀ r ∈ operands, r ∉ reserved := by
  unfold checkExpansionOperands at h
  split at h
  · cases h
  · rename_i hany
    intro r hr hres
    exact hany (List.any_eq_true.mpr ⟨r, hr, List.contains_iff_mem.mpr hres⟩)

/-- The state after an instruction that leaves results in `rax` and `rdx`. -/
structure LeavesPair (s s1 : State) (lo hi : BitVec 64) : Prop where
  rax : s1.regs 0 = lo
  rdx : s1.regs 2 = hi
  others : ∀ r, r ≠ 0 → r ≠ 2 → s1.regs r = s.regs r
  mem : s1.mem = s.mem

theorem leavesPair_set (s : State) (lo hi : BitVec 64) (flags : Option Flags) :
    LeavesPair s (((s.setReg 0 lo).setReg 2 hi).withFlags flags) lo hi where
  rax := by simp [State.setReg]
  rdx := by simp [State.setReg]
  others := fun r h0 h2 => by simp [State.setReg, h0, h2]
  mem := rfl

/-- The scratch writes before it do not show. -/
theorem LeavesPair.of_scratch {s s0 s1 : State} {lo hi : BitVec 64}
    (h : LeavesPair s0 s1 lo hi) (hregs : ∀ r, r ≠ 0 → r ≠ 2 → s0.regs r = s.regs r)
    (hmem : s0.mem = s.mem) : LeavesPair s s1 lo hi where
  rax := h.rax
  rdx := h.rdx
  others := fun r h0 h2 => (h.others r h0 h2).trans (hregs r h0 h2)
  mem := h.mem.trans hmem

/-- The states an expansion through `rax` and `rdx` may end in. -/
structure AfterExpansion (s s' : State) (rd : Nat) (value : BitVec 64) : Prop where
  dest : s'.regs rd = value
  others : ∀ r, r ≠ rd → r ≠ 0 → r ≠ 2 → s'.regs r = s.regs r
  mem : s'.mem = s.mem

/-- `mov rax, rn`, then an instruction that leaves results in `rax` and `rdx`,
    then `mov rd` from one of the two. -/
theorem runs_expansion (source : UInt8) {rd rn : UInt8} {middle : List UInt8} {lo hi : BitVec 64}
    (hrd : rd.toNat < 16) (hrn : rn.toNat < 16) (hsource : source = 0 ∨ source = 2)
    {s s1 : State} (hpair : LeavesPair s s1 lo hi)
    (hmiddle : ∀ {rest : List UInt8} {s' : State}, Runs rest s1 s' →
      Runs (middle ++ rest) (s.setReg 0 (s.regs rn.toNat)) s') :
    ∃ s', Runs (emitMovRr 0 rn ++ middle ++ emitMovRr rd source) s s' ∧
      AfterExpansion s s' rd.toNat (if source = 0 then lo else hi) := by
  have hsource16 : source.toNat < 16 := by
    rcases hsource with rfl | rfl <;> decide
  refine ⟨s1.setReg rd.toNat (s1.regs source.toNat), ?_, ?_, fun r hr h0 h2 => ?_, hpair.mem⟩
  · rw [List.append_assoc]
    apply runs_movRr (by decide) hrn
    apply hmiddle
    rw [← List.append_nil (emitMovRr rd source)]
    exact runs_movRr hrd hsource16 (.done _)
  · rw [State.setReg_regs_self]
    rcases hsource with rfl | rfl
    · exact hpair.rax
    · exact hpair.rdx
  · rw [State.setReg_regs_of_ne _ _ hr]
    exact hpair.others r h0 h2

/-- An operand outside of `rax` reads the same after `mov rax, rn`. -/
theorem read_after_mov {rm : Nat} (h : rm ≠ 0) (s : State) (value : BitVec 64) :
    (Rm.reg rm).read (s.setReg 0 value) .qword = s.regs rm := by
  rw [Rm.read, Size.low_qword, State.setReg_regs_of_ne _ _ h]

theorem setReg_rax_others (s : State) (value : BitVec 64) :
    ∀ r, r ≠ 0 → r ≠ 2 → (s.setReg 0 value).regs r = s.regs r :=
  fun _ h0 _ => State.setReg_regs_of_ne _ _ h0

theorem runs_umulh {rd rn rm : UInt8} (hrd : rd.toNat < 16) (hrn : rn.toNat < 16)
    (hrm : rm.toNat < 16) (hfree : rm.toNat ≠ 0) (s : State) :
    ∃ s', Runs (emitMovRr 0 rn ++ emitGroup 0xf7 4 rm ++ emitMovRr rd 2) s s' ∧
      AfterExpansion s s' rd.toNat (BitVec.ofNat 64
        ((s.regs rn.toNat).toNat * (s.regs rm.toNat).toNat / 2 ^ 64)) := by
  refine runs_expansion 2 hrd hrn (.inr rfl)
    ((leavesPair_set (s.setReg 0 (s.regs rn.toNat))
      (BitVec.ofNat 64 ((s.regs rn.toNat).toNat * (s.regs rm.toNat).toNat))
      (BitVec.ofNat 64 ((s.regs rn.toNat).toNat * (s.regs rm.toNat).toNat / 2 ^ 64))
      none).of_scratch (setReg_rax_others s _) rfl) fun hrest =>
        runs_f7 (by decide) hrm rfl ?_ hrest
  simp only [exec, read_after_mov hfree, State.setReg_regs_self]

theorem dividend_zero_toNat (s : State) (h : s.regs 2 = 0) :
    (dividend s).toNat = (s.regs 0).toNat := by
  rw [dividend, h, BitVec.toNat_append]
  simp

theorem runs_udiv {rd rn rm : UInt8} (hrd : rd.toNat < 16) (hrn : rn.toNat < 16)
    (hrm : rm.toNat < 16) (hfree : rm.toNat ≠ 0) (hfree' : rm.toNat ≠ 2) (s : State)
    (hzero : s.regs rm.toNat ≠ 0) :
    ∃ s', Runs (emitMovRr 0 rn ++ ([0x31, 0xd2] ++ emitGroup 0xf7 6 rm) ++ emitMovRr rd 0)
        s s' ∧
      AfterExpansion s s' rd.toNat (s.regs rn.toNat / s.regs rm.toNat) := by
  have hd : (s.regs rm.toNat).toNat ≠ 0 := fun h => hzero (BitVec.toNat_inj.mp h)
  have hquot : (s.regs rn.toNat).toNat / (s.regs rm.toNat).toNat < 2 ^ 64 :=
    lt_of_le_of_lt (Nat.div_le_self _ _) (s.regs rn.toNat).isLt
  have hvalue : BitVec.ofNat 64 ((s.regs rn.toNat).toNat / (s.regs rm.toNat).toNat) =
      s.regs rn.toNat / s.regs rm.toNat := by
    apply BitVec.eq_of_toNat_eq
    rw [BitVec.toNat_ofNat, BitVec.toNat_udiv, Nat.mod_eq_of_lt hquot]
  -- The divide starts with `rdx` cleared, whatever flags `xor` leaves.
  have hexec : ∀ flags, exec (((s.setReg 0 (s.regs rn.toNat)).setReg 2 0).withFlags flags)
      (.div (.reg rm.toNat)) = some ((((((s.setReg 0 (s.regs rn.toNat)).setReg 2 0).withFlags
        none).setReg 0 (s.regs rn.toNat / s.regs rm.toNat)).setReg 2 (BitVec.ofNat 64
          ((s.regs rn.toNat).toNat % (s.regs rm.toNat).toNat))).withFlags none) := by
    intro flags
    have hread : (Rm.reg rm.toNat).read
        (((s.setReg 0 (s.regs rn.toNat)).setReg 2 0).withFlags flags) .qword =
          s.regs rm.toNat := by
      rw [Rm.read, Size.low_qword, State.withFlags_regs, State.setReg_regs_of_ne _ _ hfree',
        State.setReg_regs_of_ne _ _ hfree]
    have hdividend : (dividend
        (((s.setReg 0 (s.regs rn.toNat)).setReg 2 0).withFlags flags)).toNat =
          (s.regs rn.toNat).toNat := by
      rw [dividend_zero_toNat _ (by simp)]
      simp [State.setReg]
    simp only [exec, hread, hdividend, hvalue]
    rw [if_neg (by omega)]
    rfl
  have hpair := (leavesPair_set (((s.setReg 0 (s.regs rn.toNat)).setReg 2 0).withFlags none)
    (s.regs rn.toNat / s.regs rm.toNat) (BitVec.ofNat 64
      ((s.regs rn.toNat).toNat % (s.regs rm.toNat).toNat)) none).of_scratch (s := s)
        (fun r h0 h2 => by simp [State.setReg, h0, h2]) rfl
  refine runs_expansion 0 hrd hrn (.inl rfl) hpair fun {rest s'} hrest => ?_
  rw [List.append_assoc]
  exact runs_xorEdx fun flags => runs_f7 (by decide) hrm rfl (hexec flags) hrest

/-- A sign-extended number in `rdx:rax`. -/
theorem dividend_cqo_toInt (s : State)
    (h : s.regs 2 = if (s.regs 0).msb then BitVec.allOnes 64 else 0) :
    (dividend s).toInt = (s.regs 0).toInt := by
  have hself : (s.regs 0).toInt = if (s.regs 0).msb = true then
      ((s.regs 0).toNat : Int) - (2 ^ 64 : Nat) else (s.regs 0).toNat :=
    BitVec.toInt_eq_msb_cond (s.regs 0)
  rw [dividend, h, BitVec.toInt_append, if_neg (by decide), hself]
  by_cases hmsb : (s.regs 0).msb = true
  · have hones : (BitVec.allOnes 64).toInt = -1 := by decide
    rw [if_pos hmsb, if_pos hmsb, hones]
    omega
  · rw [if_neg hmsb, if_neg hmsb]
    simp

theorem runs_sdiv {rd rn rm : UInt8} (hrd : rd.toNat < 16) (hrn : rn.toNat < 16)
    (hrm : rm.toNat < 16) (hfree : rm.toNat ≠ 0) (hfree' : rm.toNat ≠ 2) (s : State)
    (hzero : s.regs rm.toNat ≠ 0)
    (hover : ¬ (s.regs rn.toNat = BitVec.intMin 64 ∧ s.regs rm.toNat = -1#64)) :
    ∃ s', Runs (emitMovRr 0 rn ++ ([0x48, 0x99] ++ emitGroup 0xf7 7 rm) ++ emitMovRr rd 0)
        s s' ∧
      AfterExpansion s s' rd.toNat ((s.regs rn.toNat).sdiv (s.regs rm.toNat)) := by
  have hd : (s.regs rm.toNat).toInt ≠ 0 := fun h => hzero (BitVec.toInt_inj.mp h)
  have hq : (s.regs rn.toNat).toInt.tdiv (s.regs rm.toNat).toInt =
      ((s.regs rn.toNat).sdiv (s.regs rm.toNat)).toInt := by
    rw [BitVec.toInt_sdiv_of_ne_or_ne _ _ (by tauto)]
  have hlow := ((s.regs rn.toNat).sdiv (s.regs rm.toNat)).le_toInt
  have hhigh := ((s.regs rn.toNat).sdiv (s.regs rm.toNat)).toInt_lt
  have hexec : exec ((s.setReg 0 (s.regs rn.toNat)).setReg 2
      (if (s.regs rn.toNat).msb then BitVec.allOnes 64 else 0)) (.idiv (.reg rm.toNat)) =
      some (((((s.setReg 0 (s.regs rn.toNat)).setReg 2
        (if (s.regs rn.toNat).msb then BitVec.allOnes 64 else 0)).setReg 0
          ((s.regs rn.toNat).sdiv (s.regs rm.toNat))).setReg 2 (BitVec.ofInt 64
            ((s.regs rn.toNat).toInt.tmod (s.regs rm.toNat).toInt))).withFlags none) := by
    have hread : (Rm.reg rm.toNat).read ((s.setReg 0 (s.regs rn.toNat)).setReg 2
        (if (s.regs rn.toNat).msb then BitVec.allOnes 64 else 0)) .qword =
          s.regs rm.toNat := by
      rw [Rm.read, Size.low_qword, State.setReg_regs_of_ne _ _ hfree',
        State.setReg_regs_of_ne _ _ hfree]
    have hdividend : (dividend ((s.setReg 0 (s.regs rn.toNat)).setReg 2
        (if (s.regs rn.toNat).msb then BitVec.allOnes 64 else 0))).toInt =
          (s.regs rn.toNat).toInt := by
      rw [dividend_cqo_toInt]
      · simp [State.setReg]
      · simp [State.setReg]
    simp only [exec, hread, hdividend, hq, BitVec.ofInt_toInt]
    rw [if_neg (by omega)]
  have hpair := (leavesPair_set ((s.setReg 0 (s.regs rn.toNat)).setReg 2
    (if (s.regs rn.toNat).msb then BitVec.allOnes 64 else 0))
      ((s.regs rn.toNat).sdiv (s.regs rm.toNat)) (BitVec.ofInt 64
        ((s.regs rn.toNat).toInt.tmod (s.regs rm.toNat).toInt)) none).of_scratch (s := s)
          (fun r h0 h2 => by simp [State.setReg, h0, h2]) rfl
  refine runs_expansion 0 hrd hrn (.inl rfl) hpair fun {rest s'} hrest => ?_
  rw [List.append_assoc]
  apply runs_cqo
  rw [State.setReg_regs_self]
  exact runs_f7 (by decide) hrm rfl hexec hrest

/-- The count goes to `rcx` before `rd` is written. -/
theorem runs_shift {ext rd rn rm : UInt8} {f : BitVec 64 → Nat → BitVec 64} {i : Instr}
    (hext : ext.toNat < 8) (hrd : rd.toNat < 16) (hrn : rn.toNat < 16) (hrm : rm.toNat < 16)
    (hdfree : rd.toNat ≠ 1) (hnfree : rn.toNat ≠ 1)
    (hi : groupD3 .qword (.reg rd.toNat) ext.toNat = some i)
    (hexec : ∀ s, exec s i = some (execShift f .qword (.reg rd.toNat) s)) (s : State) :
    ∃ s', Runs (emitMovRr 1 rm ++ (if rd = rn then [] else emitMovRr rd rn) ++
        emitGroup 0xd3 ext rd) s s' ∧
      s'.regs rd.toNat = f (s.regs rn.toNat) ((s.regs rm.toNat).toNat % 64) ∧
      (∀ r, r ≠ rd.toNat → r ≠ 1 → s'.regs r = s.regs r) ∧ s'.mem = s.mem := by
  -- The state before the shift: the count in `rcx`, the value in `rd`.
  have hready : ∃ s2, (∀ {rest s'}, Runs rest s2 s' →
      Runs ((if rd = rn then [] else emitMovRr rd rn) ++ rest)
        (s.setReg 1 (s.regs rm.toNat)) s') ∧
      s2.regs 1 = s.regs rm.toNat ∧ s2.regs rd.toNat = s.regs rn.toNat ∧
      (∀ r, r ≠ rd.toNat → r ≠ 1 → s2.regs r = s.regs r) ∧ s2.mem = s.mem := by
    by_cases hdn : rd = rn
    · subst hdn
      refine ⟨s.setReg 1 (s.regs rm.toNat), fun h => by rwa [if_pos rfl], ?_, ?_,
        fun r _ h1 => State.setReg_regs_of_ne _ _ h1, rfl⟩
      · rw [State.setReg_regs_self]
      · rw [State.setReg_regs_of_ne _ _ hdfree]
    · refine ⟨(s.setReg 1 (s.regs rm.toNat)).setReg rd.toNat (s.regs rn.toNat), fun h => ?_,
        ?_, State.setReg_regs_self _ _ _, fun r hr h1 => ?_, rfl⟩
      · rw [if_neg hdn]
        apply runs_movRr hrd hrn
        rwa [State.setReg_regs_of_ne _ _ hnfree]
      · rw [State.setReg_regs_of_ne _ _ (Ne.symm hdfree), State.setReg_regs_self]
      · rw [State.setReg_regs_of_ne _ _ hr, State.setReg_regs_of_ne _ _ h1]
  obtain ⟨s2, hrun, hcount, hvalue, hothers, hmem⟩ := hready
  have hread : (Rm.reg rd.toNat).read s2 .qword = s.regs rn.toNat := by
    rw [Rm.read, Size.low_qword, hvalue]
  have hshift : shiftCount .qword s2 = (s.regs rm.toNat).toNat % 64 := by
    rw [shiftCount, hcount, if_pos rfl]
  refine ⟨execShift f .qword (.reg rd.toNat) s2, ?_, ?_, fun r hr h1 => ?_, ?_⟩
  · rw [List.append_assoc]
    apply runs_movRr (by decide) hrm
    apply hrun
    rw [← List.append_nil (emitGroup 0xd3 ext rd)]
    exact runs_d3 hext hrd hi (hexec s2) (.done _)
  · rw [execShift, hread, hshift]
    exact State.setReg_regs_self s2 _ _
  · rw [execShift, State.withFlags_regs]
    exact (State.setReg_regs_of_ne s2 _ hr).trans (hothers r hr h1)
  · exact hmem

end Runs

/-! ## Accepted ops -/

/-- Every 64-bit general-purpose register operand is one of the sixteen. -/
def Inst.Hardware (inst : Inst) : Prop :=
  ∀ key n, inst.num key = some n → n < 16

theorem parseGpr_ok {inst : Inst} (hregs : inst.Hardware) {key : RegKey} {u : UInt8}
    (h : parseGpr inst key = .ok u) : inst.num key = some u.toNat ∧ u.toNat < 16 := by
  unfold parseGpr at h
  have hnum : ∀ n, inst.reg key = some (.gpr n) → inst.num key = some n := by
    intro n hn
    rw [Inst.num, hn]
  split at h
  · cases h
  · rename_i n hn
    cases h
    have hlt := hregs key n (hnum n hn)
    have hn' : (UInt8.ofNat n).toNat = n := by
      rw [UInt8.toNat_ofNat']
      omega
    rw [hn']
    exact ⟨hnum n hn, hlt⟩
  · cases h

theorem immOf_ok {inst : Inst} {imm : Nat} (h : immOf inst = .ok imm) :
    inst.imm = some imm := by
  unfold immOf at h
  split at h
  · rename_i hi
    cases h
    exact hi
  · cases h

theorem condOf_ok {inst : Inst} {cond : ConditionCode} (h : condOf inst = .ok cond) :
    inst.cond = some cond := by
  unfold condOf at h
  split at h
  · rename_i hc
    cases h
    exact hc
  · cases h

theorem disp32_ok {value disp : Nat} {mnemonic : String}
    (h : disp32 value mnemonic = .ok disp) : disp = value ∧ value < 2 ^ 31 := by
  unfold disp32 at h
  split at h
  · rename_i hlt
    cases h
    exact ⟨rfl, hlt⟩
  · cases h

/-- The three register operands of an op, and what is done with them. -/
theorem three_of_ok {inst : Inst} (hregs : inst.Hardware)
    {f : UInt8 → UInt8 → UInt8 → Except String (List UInt8)} {bytes : List UInt8}
    (h : (do
      let rd ← parseGpr inst .rd
      let rn ← parseGpr inst .rn
      let rm ← parseGpr inst .rm
      f rd rn rm) = .ok bytes) :
    ∃ rd rn rm : UInt8, (inst.num .rd = some rd.toNat ∧ rd.toNat < 16) ∧
      (inst.num .rn = some rn.toNat ∧ rn.toNat < 16) ∧
      (inst.num .rm = some rm.toNat ∧ rm.toNat < 16) ∧ f rd rn rm = .ok bytes := by
  obtain ⟨rd, hrd, h⟩ := ok_of_bind h
  obtain ⟨rn, hrn, h⟩ := ok_of_bind h
  obtain ⟨rm, hrm, h⟩ := ok_of_bind h
  exact ⟨rd, rn, rm, parseGpr_ok hregs hrd, parseGpr_ok hregs hrn, parseGpr_ok hregs hrm, h⟩

/-- The op's bytes leave what the op says. -/
def Computes (inst : Inst) (bytes : List UInt8) : Prop :=
  ∀ s t, perform inst s = some t → ∃ s', Runs bytes s s' ∧ Agrees inst.opcode t s'

/-- The three-address ops. -/
def binaryOps : List X86_64Opcode :=
  [.add, .sub, .mul, .umulh, .sdiv, .udiv, .and, .or, .xor, .shl, .lsr]

/-- A three-address op says: its result goes to `rd`. -/
theorem perform_binary {inst : Inst} (hop : inst.opcode ∈ binaryOps) {rd rn rm : Nat}
    (hrd : inst.num .rd = some rd) (hrn : inst.num .rn = some rn)
    (hrm : inst.num .rm = some rm) {s t : State} (h : perform inst s = some t) :
    ∃ value, binaryResult (s.regs rn) (s.regs rm) inst.opcode = some value ∧
      t = s.setReg rd value := by
  have hperform : perform inst s =
      (binaryResult (s.regs rn) (s.regs rm) inst.opcode).map fun value =>
        s.setReg rd value := by
    simp only [binaryOps, List.mem_cons, List.not_mem_nil, or_false] at hop
    rcases hop with hop | hop | hop | hop | hop | hop | hop | hop | hop | hop | hop <;>
      simp only [perform, hop, memRow, hrd, hrn, hrm, Option.bind_some]
  rw [hperform, Option.map_eq_some_iff] at h
  obtain ⟨value, hvalue, rfl⟩ := h
  exact ⟨value, hvalue, rfl⟩

/-- The ALU op of a row computes the row's result. -/
theorem alu_computes {inst : Inst} (hregs : inst.Hardware) {code : UInt8}
    {commutative : Bool} (hrow : aluRow inst.opcode = some (code, commutative))
    {bytes : List UInt8} (h : encodeStraight inst = .ok bytes) : Computes inst bytes := by
  -- The processor's op of each row.
  have hop : ∃ op, aluOf code = some op ∧ op.writes = true ∧
      (commutative = true → ∀ a b : BitVec 64, (op.compute a b).1 = (op.compute b a).1) ∧
      (commutative = false → op = .sub) ∧ inst.opcode ∈ binaryOps ∧
      keepsFlags inst.opcode = false ∧ clobbers inst.opcode = [] ∧
      ∀ a b : BitVec 64, binaryResult a b inst.opcode = some (op.compute a b).1 := by
    cases hopcode : inst.opcode <;> rw [hopcode] at hrow <;> cases hrow
    · exact ⟨.add, rfl, rfl, fun _ a b => BitVec.add_comm a b, (by simp), by decide, rfl, rfl,
        fun _ _ => rfl⟩
    · exact ⟨.sub, rfl, rfl, by simp, fun _ => rfl, by decide, rfl, rfl, fun _ _ => rfl⟩
    · exact ⟨.and, rfl, rfl, fun _ a b => BitVec.and_comm a b, (by simp), by decide, rfl, rfl,
        fun _ _ => rfl⟩
    · exact ⟨.or, rfl, rfl, fun _ a b => BitVec.or_comm a b, (by simp), by decide, rfl, rfl,
        fun _ _ => rfl⟩
    · exact ⟨.xor, rfl, rfl, fun _ a b => BitVec.xor_comm a b, (by simp), by decide, rfl, rfl,
        fun _ _ => rfl⟩
  obtain ⟨op, halu, hwrites, hcomm, hsub, hbinary, hflags, hclob, hresult⟩ := hop
  simp only [encodeStraight, hrow] at h
  obtain ⟨rd, rn, rm, hrd, hrn, hrm, h⟩ := three_of_ok hregs h
  cases h
  intro s t ht
  obtain ⟨value, hvalue, rfl⟩ := perform_binary hbinary hrd.1 hrn.1 hrm.1 ht
  rw [hresult] at hvalue
  cases hvalue
  obtain ⟨flags, hrun⟩ := runs_aluThree halu hwrites hcomm hsub hrd.2 hrn.2 hrm.2 s
  exact ⟨_, hrun, fun _ _ => rfl, rfl, fun hkeeps => by rw [hflags] at hkeeps; cases hkeeps⟩

/-- Loads and stores, of every size, from `rsp` or a register. -/
theorem mem_computes {inst : Inst} (hregs : inst.Hardware) {size : Nat}
    {isStore onSp : Bool} (halu : aluRow inst.opcode = none)
    (hrow : memRow inst.opcode = some (size, isStore, onSp)) {bytes : List UInt8}
    (h : encodeStraight inst = .ok bytes) : Computes inst bytes := by
  have hsize : size = 8 ∨ size = 4 ∨ size = 2 ∨ size = 1 := by
    cases hopcode : inst.opcode <;> rw [hopcode] at hrow <;> cases hrow <;> simp
  simp only [encodeStraight, halu, hrow] at h
  obtain ⟨rt, hrt, h⟩ := ok_of_bind h
  obtain ⟨base, hbase, h⟩ := ok_of_bind h
  obtain ⟨imm, himm, h⟩ := ok_of_bind h
  obtain ⟨disp, hdisp, h⟩ := ok_of_bind h
  cases h
  have hrt := parseGpr_ok hregs hrt
  have himm := immOf_ok himm
  obtain ⟨rfl, hlt⟩ := disp32_ok hdisp
  have hbase : (if onSp then some 4 else inst.num .rn) = some base.toNat ∧
      base.toNat < 16 := by
    cases onSp with
    | true =>
        cases hbase
        exact ⟨rfl, by decide⟩
    | false => exact parseGpr_ok hregs hbase
  intro s t ht
  simp only [perform, hrow, hrt.1, hbase.1, himm, Option.bind_some, Option.map_some,
    Option.some.injEq] at ht
  subst ht
  refine ⟨_, ?_, Agrees.refl _ _⟩
  cases isStore with
  | true =>
      rw [if_pos rfl, ← List.append_nil (emitStore size rt base disp)]
      exact runs_store hsize hrt.2 hbase.2 hlt (.done _)
  | false =>
      rw [if_neg (by decide), ← List.append_nil (emitLoad size rt base disp)]
      exact runs_load hsize hrt.2 hbase.2 hlt (.done _)

/-- An expansion through `rax` and `rdx` computes the op's result. -/
theorem expansion_computes {inst : Inst} (hop : inst.opcode ∈ binaryOps)
    (hclob : clobbers inst.opcode = [0, 2]) (hkeeps : keepsFlags inst.opcode = false)
    {rd rn rm : Nat} (hrd : inst.num .rd = some rd) (hrn : inst.num .rn = some rn)
    (hrm : inst.num .rm = some rm) {bytes : List UInt8}
    (hrun : ∀ s value, binaryResult (s.regs rn) (s.regs rm) inst.opcode = some value →
      ∃ s', Runs bytes s s' ∧ AfterExpansion s s' rd value) : Computes inst bytes := by
  intro s t ht
  obtain ⟨value, hvalue, rfl⟩ := perform_binary hop hrd hrn hrm ht
  obtain ⟨s', hs', hafter⟩ := hrun s value hvalue
  refine ⟨s', hs', fun r hr => ?_, hafter.mem, fun h => by rw [hkeeps] at h; cases h⟩
  simp only [hclob, List.mem_cons, List.not_mem_nil, or_false, not_or] at hr
  by_cases hd : r = rd
  · subst hd
    rw [hafter.dest, State.setReg_regs_self]
  · rw [hafter.others r hd hr.1 hr.2, State.setReg_regs_of_ne _ _ hd]

/-- A register outside of a reserved list. -/
theorem toNat_ne_of_notMem {r : UInt8} {reserved : List UInt8} (h : r ∉ reserved) {k : UInt8}
    (hk : k ∈ reserved) : r.toNat ≠ k.toNat :=
  toNat_ne fun heq => h (heq ▸ hk)

/-- A shift computes the op's result, with the count in `rcx`. -/
theorem shift_computes {inst : Inst} (hop : inst.opcode ∈ binaryOps)
    (hclob : clobbers inst.opcode = [1]) (hkeeps : keepsFlags inst.opcode = false)
    {ext : UInt8} {f : BitVec 64 → Nat → BitVec 64} {i : Nat → Instr} (hext : ext.toNat < 8)
    (hi : ∀ rd, groupD3 .qword (.reg rd) ext.toNat = some (i rd))
    (hexec : ∀ rd s, exec s (i rd) = some (execShift f .qword (.reg rd) s))
    (hresult : ∀ a b : BitVec 64, binaryResult a b inst.opcode = some (f a (b.toNat % 64)))
    {rd rn rm : UInt8} (hrd : inst.num .rd = some rd.toNat ∧ rd.toNat < 16)
    (hrn : inst.num .rn = some rn.toNat ∧ rn.toNat < 16)
    (hrm : inst.num .rm = some rm.toNat ∧ rm.toNat < 16)
    (hfree : ∀ r ∈ [rd, rn, rm], r ∉ ([1] : List UInt8)) :
    Computes inst (emitMovRr 1 rm ++ (if rd = rn then [] else emitMovRr rd rn) ++
      emitGroup 0xd3 ext rd) := by
  intro s t ht
  obtain ⟨value, hvalue, rfl⟩ := perform_binary hop hrd.1 hrn.1 hrm.1 ht
  rw [hresult] at hvalue
  cases hvalue
  have hdfree := toNat_ne_of_notMem (hfree rd (by simp)) (k := 1) (by simp)
  have hnfree := toNat_ne_of_notMem (hfree rn (by simp)) (k := 1) (by simp)
  obtain ⟨s', hrun, hdest, hothers, hmem⟩ := runs_shift hext hrd.2 hrn.2 hrm.2 hdfree hnfree
    (hi rd.toNat) (hexec rd.toNat) s
  refine ⟨s', hrun, fun r hr => ?_, hmem, fun h => by rw [hkeeps] at h; cases h⟩
  simp only [hclob, List.mem_cons, List.not_mem_nil, or_false] at hr
  by_cases hd : r = rd.toNat
  · subst hd
    rw [hdest, State.setReg_regs_self]
  · rw [hothers r hd hr, State.setReg_regs_of_ne _ _ hd]

/-- Moving `rsp` by an immediate. -/
theorem spImm_computes {inst : Inst} {op : AluOp} {modrmByte : UInt8}
    (hcases : op = .add ∨ op = .sub) (hkeeps : keepsFlags inst.opcode = false) {imm : Nat}
    (hperform : ∀ s, perform inst s =
      some (s.setReg 4 (op.compute (s.regs 4) (BitVec.ofNat 64 imm)).1))
    (hop : ∀ rest, decodeRm ⟨true, false, false, false⟩ (modrmByte :: rest) =
      some (if op = .sub then 5 else 0, .reg 4, rest)) (himm : imm < 2 ^ 31) :
    Computes inst ([0x48, 0x81, modrmByte] ++ toLE 4 imm) := by
  intro s t ht
  rw [hperform, Option.some.injEq] at ht
  subst ht
  refine ⟨(s.setReg 4 (op.compute (s.regs 4) (BitVec.ofNat 64 imm)).1).withFlags
    (some (op.compute (s.regs 4) (BitVec.ofNat 64 imm)).2), ?_, fun _ _ => rfl, rfl,
    fun h => by rw [hkeeps] at h; cases h⟩
  rw [← List.append_nil (_ ++ toLE 4 imm)]
  exact runs_spImm (hop _) himm hcases (.done _)

theorem encodeStraight_computes {inst : Inst} (hregs : inst.Hardware)
    (hstraight : isStraight inst.opcode = true) {bytes : List UInt8}
    (h : encodeStraight inst = .ok bytes) : Computes inst bytes := by
  cases halu : aluRow inst.opcode with
  | some row => exact alu_computes hregs halu h
  | none =>
  cases hmem : memRow inst.opcode with
  | some row => exact mem_computes hregs halu hmem h
  | none =>
  cases hop : inst.opcode
  case add | sub | and | or | xor =>
    rw [hop] at halu
    cases halu
  case strSpOffset | ldrSpOffset | strwSpOffset | ldrwSpOffset | strhSpOffset | ldrhSpOffset
      | strbSpOffset | ldrbSpOffset | strRegOffset | ldrRegOffset | strwRegOffset
      | ldrwRegOffset | strhRegOffset | ldrhRegOffset | strbRegOffset | ldrbRegOffset =>
    rw [hop] at hmem
    cases hmem
  case adrLiteral | adrFunction | ret | ud2 | call | callReg | jmp | jcc | testJnz =>
    rw [hop] at hstraight
    cases hstraight
  all_goals simp only [encodeStraight, hop, aluRow, memRow] at h
  case movImm =>
    obtain ⟨rd, hrd, h⟩ := ok_of_bind h
    obtain ⟨imm, himm, h⟩ := ok_of_bind h
    cases h
    have hrd := parseGpr_ok hregs hrd
    have himm := immOf_ok himm
    intro s t ht
    simp only [perform, hop, memRow, hrd.1, himm, Option.bind_some, Option.map_some,
      Option.some.injEq] at ht
    subst ht
    refine ⟨_, ?_, Agrees.refl _ _⟩
    rw [← List.append_nil (_ ++ toLE 8 imm)]
    exact runs_movImm hrd.2 imm (.done _)
  case mov =>
    obtain ⟨rd, hrd, h⟩ := ok_of_bind h
    obtain ⟨rm, hrm, h⟩ := ok_of_bind h
    cases h
    have hrd := parseGpr_ok hregs hrd
    have hrm := parseGpr_ok hregs hrm
    intro s t ht
    simp only [perform, hop, memRow, hrd.1, hrm.1, Option.bind_some, Option.map_some,
      Option.some.injEq] at ht
    subst ht
    refine ⟨_, ?_, Agrees.refl _ _⟩
    rw [← List.append_nil (emitMovRr rd rm)]
    exact runs_movRr hrd.2 hrm.2 (.done _)
  case mul =>
    obtain ⟨rd, rn, rm, hrd, hrn, hrm, h⟩ := three_of_ok hregs h
    cases h
    intro s t ht
    obtain ⟨value, hvalue, rfl⟩ := perform_binary (by rw [hop]; decide) hrd.1 hrn.1 hrm.1 ht
    rw [hop] at hvalue
    cases hvalue
    exact ⟨_, runs_mul hrd.2 hrn.2 hrm.2 s, fun _ _ => rfl, rfl,
      fun hkeeps => by rw [hop] at hkeeps; cases hkeeps⟩
  case umulh =>
    obtain ⟨rd, rn, rm, hrd, hrn, hrm, h⟩ := three_of_ok hregs h
    obtain ⟨_, hcheck, h⟩ := ok_of_bind h
    cases h
    have hfree := checked_of_ok hcheck rm (by simp)
    refine expansion_computes (by rw [hop]; decide) (by rw [hop]; rfl) (by rw [hop]; rfl)
      hrd.1 hrn.1 hrm.1 fun s value hvalue => ?_
    rw [hop] at hvalue
    cases hvalue
    exact runs_umulh hrd.2 hrn.2 hrm.2 (toNat_ne_of_notMem hfree (k := 0) (by simp)) s
  case sdiv =>
    obtain ⟨rd, rn, rm, hrd, hrn, hrm, h⟩ := three_of_ok hregs h
    obtain ⟨_, hcheck, h⟩ := ok_of_bind h
    cases h
    have hfree := checked_of_ok hcheck rm (by simp)
    refine expansion_computes (by rw [hop]; decide) (by rw [hop]; rfl) (by rw [hop]; rfl)
      hrd.1 hrn.1 hrm.1 fun s value hvalue => ?_
    rw [hop, binaryResult] at hvalue
    split at hvalue
    · cases hvalue
    · rename_i hdefined
      cases hvalue
      have hrun := runs_sdiv hrd.2 hrn.2 hrm.2 (toNat_ne_of_notMem hfree (k := 0) (by simp))
        (toNat_ne_of_notMem hfree (k := 2) (by simp)) s (fun hz => hdefined (.inl hz))
        fun hmin => hdefined (.inr hmin)
      rw [← List.append_assoc (emitMovRr 0 rn)] at hrun
      exact hrun
  case udiv =>
    obtain ⟨rd, rn, rm, hrd, hrn, hrm, h⟩ := three_of_ok hregs h
    obtain ⟨_, hcheck, h⟩ := ok_of_bind h
    cases h
    have hfree := checked_of_ok hcheck rm (by simp)
    refine expansion_computes (by rw [hop]; decide) (by rw [hop]; rfl) (by rw [hop]; rfl)
      hrd.1 hrn.1 hrm.1 fun s value hvalue => ?_
    rw [hop, binaryResult] at hvalue
    split at hvalue
    · cases hvalue
    · rename_i hdefined
      cases hvalue
      have hrun := runs_udiv hrd.2 hrn.2 hrm.2 (toNat_ne_of_notMem hfree (k := 0) (by simp))
        (toNat_ne_of_notMem hfree (k := 2) (by simp)) s hdefined
      rw [← List.append_assoc (emitMovRr 0 rn)] at hrun
      exact hrun
  case cmp =>
    obtain ⟨rn, hrn, h⟩ := ok_of_bind h
    obtain ⟨rm, hrm, h⟩ := ok_of_bind h
    cases h
    have hrn := parseGpr_ok hregs hrn
    have hrm := parseGpr_ok hregs hrm
    intro s t ht
    simp only [perform, hop, memRow, hrn.1, hrm.1, Option.bind_some, Option.map_some,
      Option.some.injEq] at ht
    subst ht
    refine ⟨_, ?_, Agrees.refl _ _⟩
    rw [← List.append_nil (emitAlu 0x39 rn rm)]
    apply runs_alu (show aluOf 0x39 = some .cmp from rfl) hrn.2 hrm.2
    rw [execAlu_reg]
    simp only [AluOp.writes, Bool.false_eq_true, if_false, AluOp.compute, subFlags_eq]
    exact .done _
  case cset =>
    obtain ⟨rd, hrd, h⟩ := ok_of_bind h
    obtain ⟨cond, hcond, h⟩ := ok_of_bind h
    cases h
    have hrd := parseGpr_ok hregs hrd
    have hcond := condOf_ok hcond
    intro s t ht
    simp only [perform, hop, memRow, hrd.1, hcond, Option.bind_some,
      Option.map_eq_some_iff] at ht
    obtain ⟨flags, hflags, rfl⟩ := ht
    refine ⟨_, ?_, Agrees.refl _ _⟩
    rw [← List.append_nil [_, _, _, _, _, _, _, _]]
    exact runs_cset hrd.2 cond hflags (.done _)
  case push =>
    obtain ⟨rt, hrt, h⟩ := ok_of_bind h
    cases h
    have hrt := parseGpr_ok hregs hrt
    intro s t ht
    simp only [perform, hop, memRow, hrt.1, Option.map_some, Option.some.injEq] at ht
    subst ht
    refine ⟨_, ?_, Agrees.refl _ _⟩
    rw [← List.append_nil [_, _]]
    exact runs_push hrt.2 (.done _)
  case pop =>
    obtain ⟨rt, hrt, h⟩ := ok_of_bind h
    cases h
    have hrt := parseGpr_ok hregs hrt
    intro s t ht
    simp only [perform, hop, memRow, hrt.1, Option.map_some, Option.some.injEq] at ht
    subst ht
    refine ⟨_, ?_, Agrees.refl _ _⟩
    rw [← List.append_nil [_, _]]
    exact runs_pop hrt.2 (.done _)
  case shl =>
    obtain ⟨rd, rn, rm, hrd, hrn, hrm, h⟩ := three_of_ok hregs h
    obtain ⟨_, hcheck, h⟩ := ok_of_bind h
    cases h
    exact shift_computes (f := fun v n => v <<< n) (i := fun rd => .shl .qword (.reg rd))
      (by rw [hop]; decide) (by rw [hop]; rfl) (by rw [hop]; rfl)
      (show (4 : UInt8).toNat < 8 by decide) (fun _ => rfl)
      (fun _ _ => rfl) (fun _ _ => by rw [hop]; rfl) hrd hrn hrm (checked_of_ok hcheck)
  case lsr =>
    obtain ⟨rd, rn, rm, hrd, hrn, hrm, h⟩ := three_of_ok hregs h
    obtain ⟨_, hcheck, h⟩ := ok_of_bind h
    cases h
    exact shift_computes (f := fun v n => v >>> n) (i := fun rd => .shr .qword (.reg rd))
      (by rw [hop]; decide) (by rw [hop]; rfl) (by rw [hop]; rfl)
      (show (5 : UInt8).toNat < 8 by decide) (fun _ => rfl)
      (fun _ _ => rfl) (fun _ _ => by rw [hop]; rfl) hrd hrn hrm (checked_of_ok hcheck)
  case subSpImm =>
    obtain ⟨imm, himm, h⟩ := ok_of_bind h
    obtain ⟨bytes, hbytes, h⟩ := ok_of_bind h
    cases h
    obtain ⟨rfl, hlt⟩ := disp32_ok hbytes
    have himm := immOf_ok himm
    refine spImm_computes (show AluOp.sub = .add ∨ AluOp.sub = .sub from .inr rfl)
      (by rw [hop]; rfl) (fun s => ?_) (fun rest => rfl) hlt
    simp only [perform, hop, memRow, himm, Option.map_some, AluOp.compute]
  case addSpImm =>
    obtain ⟨imm, himm, h⟩ := ok_of_bind h
    obtain ⟨bytes, hbytes, h⟩ := ok_of_bind h
    cases h
    obtain ⟨rfl, hlt⟩ := disp32_ok hbytes
    have himm := immOf_ok himm
    refine spImm_computes (show AluOp.add = .add ∨ AluOp.add = .sub from .inl rfl)
      (by rw [hop]; rfl) (fun s => ?_) (fun rest => rfl) hlt
    simp only [perform, hop, memRow, himm, Option.map_some, AluOp.compute]
  case addSpOffset =>
    obtain ⟨rd, hrd, h⟩ := ok_of_bind h
    obtain ⟨imm, himm, h⟩ := ok_of_bind h
    obtain ⟨disp, hdisp, h⟩ := ok_of_bind h
    cases h
    have hrd := parseGpr_ok hregs hrd
    have himm := immOf_ok himm
    obtain ⟨rfl, hlt⟩ := disp32_ok hdisp
    intro s t ht
    simp only [perform, hop, memRow, hrd.1, himm, Option.bind_some, Option.map_some,
      Option.some.injEq] at ht
    subst ht
    refine ⟨_, ?_, Agrees.refl _ _⟩
    rw [← List.append_nil (_ ++ emitMemOperand rd 4 disp)]
    exact runs_lea hrd.2 hlt (.done _)
  case ldrStackArg =>
    obtain ⟨rd, hrd, h⟩ := ok_of_bind h
    obtain ⟨imm, himm, h⟩ := ok_of_bind h
    obtain ⟨disp, hdisp, h⟩ := ok_of_bind h
    cases h
    have hrd := parseGpr_ok hregs hrd
    have himm := immOf_ok himm
    obtain ⟨rfl, hlt⟩ := disp32_ok hdisp
    intro s t ht
    simp only [perform, hop, memRow, hrd.1, himm, Option.bind_some, Option.map_some,
      Option.some.injEq] at ht
    subst ht
    refine ⟨_, ?_, Agrees.refl _ _⟩
    -- The offset is added to the address in either order, modulo 2^64.
    have haddress : s.regs 4 + 8 + BitVec.ofNat 64 imm =
        s.regs 4 + BitVec.ofNat 64 ((imm + 8) % 2 ^ 64) := by
      have hoffset : (8 : BitVec 64) + BitVec.ofNat 64 imm =
          BitVec.ofNat 64 ((imm + 8) % 2 ^ 64) := by
        apply BitVec.eq_of_toNat_eq
        have height : (8 : BitVec 64).toNat = 8 := rfl
        simp only [BitVec.toNat_add, BitVec.toNat_ofNat, height]
        omega
      rw [BitVec.add_assoc, hoffset]
    rw [haddress, ← List.append_nil (emitLoad 8 rd 4 ((imm + 8) % 2 ^ 64))]
    exact runs_load (.inl rfl) hrd.2 (show (4 : UInt8).toNat < 16 by decide) hlt (.done _)

/-! ## What is rejected -/

/-- The ops with an immediate. -/
def needsImm (opcode : X86_64Opcode) : Bool :=
  (memRow opcode).isSome ||
    opcode ∈ [.movImm, .subSpImm, .addSpImm, .addSpOffset, .ldrStackArg]

/-- A displacement is a non-negative `i32`; `mov_imm` takes every immediate. -/
def immFits (opcode : X86_64Opcode) (imm : Nat) : Prop :=
  if opcode = .movImm then True
  else if opcode = .ldrStackArg then (imm + 8) % 2 ^ 64 < 2 ^ 31
  else imm < 2 ^ 31

/-- An op the encoder can express: its operands are there, its immediate fits,
    and no operand is in a register its expansion uses. -/
structure Encodable (inst : Inst) : Prop where
  operands : ∀ spec ∈ operandSpecs inst.opcode, ∃ n, inst.num spec.1 = some n
  imm : needsImm inst.opcode = true → ∃ imm, inst.imm = some imm ∧ immFits inst.opcode imm
  cond : inst.opcode = .cset → ∃ cond, inst.cond = some cond
  free : ∀ spec ∈ operandSpecs inst.opcode, ∀ n, inst.num spec.1 = some n →
    n ∉ clobbers inst.opcode

theorem exists_ok_bind {ε α β : Type} {x : Except ε α} {f : α → Except ε β} :
    (∃ b, (x >>= f) = .ok b) ↔ ∃ a, x = .ok a ∧ ∃ b, f a = .ok b := by
  constructor
  · rintro ⟨b, h⟩
    obtain ⟨a, ha, h⟩ := ok_of_bind h
    exact ⟨a, ha, b, h⟩
  · rintro ⟨a, rfl, b, h⟩
    exact ⟨b, h⟩

theorem parseGpr_eq_ok {inst : Inst} {key : RegKey} {u : UInt8} :
    parseGpr inst key = .ok u ↔ ∃ n, inst.num key = some n ∧ UInt8.ofNat n = u := by
  unfold parseGpr Inst.num
  rcases inst.reg key with _ | (_ | (n | n | n | _)) <;> simp

theorem immOf_eq_ok {inst : Inst} {imm : Nat} : immOf inst = .ok imm ↔ inst.imm = some imm := by
  unfold immOf
  cases inst.imm <;> simp

theorem condOf_eq_ok {inst : Inst} {cond : ConditionCode} :
    condOf inst = .ok cond ↔ inst.cond = some cond := by
  unfold condOf
  cases inst.cond <;> simp

theorem disp32_eq_ok {value disp : Nat} {mnemonic : String} :
    disp32 value mnemonic = .ok disp ↔ value < 2 ^ 31 ∧ value = disp := by
  unfold disp32
  split
  · rename_i h
    rw [Except.ok.injEq]
    exact ⟨fun heq => ⟨h, heq⟩, And.right⟩
  · rename_i h
    constructor
    · intro hd
      cases hd
    · exact fun hd => absurd hd.1 h

theorem check_eq_ok {mnemonic : String} {operands reserved : List UInt8} {u : Unit} :
    checkExpansionOperands mnemonic operands reserved = .ok u ↔
      ∀ r ∈ operands, r ∉ reserved := by
  unfold checkExpansionOperands
  split <;> simp_all

theorem ofNat_eq_iff {n : Nat} (hn : n < 16) {r : UInt8} : UInt8.ofNat n = r ↔ n = r.toNat := by
  have hto : (UInt8.ofNat n).toNat = n := by
    rw [UInt8.toNat_ofNat']
    omega
  rw [← UInt8.toNat_inj, hto]

theorem encodable_iff {inst : Inst} : Encodable inst ↔
    (∀ spec ∈ operandSpecs inst.opcode, ∃ n, inst.num spec.1 = some n) ∧
    (needsImm inst.opcode = true → ∃ imm, inst.imm = some imm ∧ immFits inst.opcode imm) ∧
    (inst.opcode = .cset → ∃ cond, inst.cond = some cond) ∧
    (∀ spec ∈ operandSpecs inst.opcode, ∀ n, inst.num spec.1 = some n →
      n ∉ clobbers inst.opcode) :=
  ⟨fun h => ⟨h.operands, h.imm, h.cond, h.free⟩, fun h => ⟨h.1, h.2.1, h.2.2.1, h.2.2.2⟩⟩

theorem encodeStraight_ok_iff {inst : Inst} (hregs : inst.Hardware)
    (hstraight : isStraight inst.opcode = true) :
    (∃ bytes, encodeStraight inst = .ok bytes) ↔ Encodable inst := by
  have hpure : ∀ x : List UInt8, ∃ b, (pure x : Except String (List UInt8)) = .ok b :=
    fun x => ⟨x, rfl⟩
  cases hop : inst.opcode
  case adrLiteral | adrFunction | ret | ud2 | call | callReg | jmp | jcc | testJnz =>
    rw [hop] at hstraight
    cases hstraight
  all_goals
    simp only [encodeStraight, hop, aluRow, memRow, baseOf, exists_ok_bind, parseGpr_eq_ok,
      immOf_eq_ok, disp32_eq_ok, condOf_eq_ok, check_eq_ok, hpure, encodable_iff, operandSpecs,
      needsImm, immFits, clobbers, Except.ok.injEq, exists_eq_left', and_true,
      if_true, if_false, Bool.false_eq_true]
  case strRegOffset | ldrRegOffset | strwRegOffset | ldrwRegOffset | strhRegOffset
      | ldrhRegOffset | strbRegOffset | ldrbRegOffset =>
    simp [and_assoc]
  case umulh | sdiv | udiv | shl | lsr =>
    -- The reserved registers are read as bytes there and as numbers here.
    constructor
    · rintro ⟨_, ⟨rd, hrd, rfl⟩, _, ⟨rn, hrn, rfl⟩, _, ⟨rm, hrm, rfl⟩, hfree⟩
      have hrd' := hregs _ _ hrd
      have hrn' := hregs _ _ hrn
      have hrm' := hregs _ _ hrm
      simp only [hrd, hrn, hrm, List.mem_cons, List.not_mem_nil, or_false, forall_eq_or_imp,
        forall_eq, ofNat_eq_iff hrd', ofNat_eq_iff hrn', ofNat_eq_iff hrm'] at hfree ⊢
      simpa using hfree
    · rintro ⟨hops, -, -, hfree⟩
      simp only [List.mem_cons, List.not_mem_nil, or_false, forall_eq_or_imp, forall_eq]
        at hops hfree
      obtain ⟨⟨rd, hrd⟩, ⟨rn, hrn⟩, rm, hrm⟩ := hops
      have hrd' := hregs _ _ hrd
      have hrn' := hregs _ _ hrn
      have hrm' := hregs _ _ hrm
      refine ⟨_, ⟨rd, hrd, rfl⟩, _, ⟨rn, hrn, rfl⟩, _, ⟨rm, hrm, rfl⟩, ?_⟩
      simp only [List.mem_cons, List.not_mem_nil, or_false, forall_eq_or_imp, forall_eq,
        ofNat_eq_iff hrd', ofNat_eq_iff hrn', ofNat_eq_iff hrm']
      have hfree := And.intro (hfree.1 rd hrd) (And.intro (hfree.2.1 rn hrn) (hfree.2.2 rm hrm))
      simpa using hfree
  all_goals simp

/-- **The encoder computes what the op says.** For every straight-line op on
    hardware registers, in any assignment of its operands: the op is encoded
    or rejected as `Encodable` says, and the bytes emitted, decoded and
    executed, leave what the op is to leave and change no other register but
    its clobbers; the condition codes read a comparison's flags as the
    comparisons they name. -/
theorem encodeInst_computes {inst : Inst} (pc : Nat) (refs : Option BinarySerializationContext)
    (hregs : inst.Hardware) (hstraight : isStraight inst.opcode = true) :
    ((∃ encoding, encodeInst inst pc refs = .ok encoding) ↔ Encodable inst) ∧
    (∀ encoding, encodeInst inst pc refs = .ok encoding → Computes inst encoding.bytes) ∧
    (∀ (a b : BitVec 64) (cond : ConditionCode),
      condHolds cond.encoding (compareFlags a b) = cond.compares a b) := by
  have hrefers : inst.opcode.refers = false := by
    cases hop : inst.opcode <;> rw [hop] at hstraight <;> first | rfl | cases hstraight
  have hencode : encodeInst inst pc refs = (encodeStraight inst).map fun bytes => { bytes } := by
    rw [encodeInst, hrefers]
    rfl
  rw [← encodeStraight_ok_iff hregs hstraight, hencode]
  refine ⟨?_, ?_, ?_⟩
  · cases encodeStraight inst with
    | error e => simp [Except.map]
    | ok bytes => simp [Except.map]
  · intro encoding h
    cases henc : encodeStraight inst with
    | error e =>
      rw [henc] at h
      cases h
    | ok bytes =>
      rw [henc] at h
      cases h
      exact encodeStraight_computes hregs hstraight henc
  · exact fun a b cond => condHolds_compareFlags a b cond

/-- `r9 = r8 - r9`: the destination is the right operand. -/
theorem encodeInst_computes_sub :
    ∃ bytes, encodeInst (Inst.binary .sub R9 R8 R9) 0 none = .ok { bytes } ∧
      Computes (Inst.binary .sub R9 R8 R9) bytes := by
  have hregs : (Inst.binary .sub R9 R8 R9).Hardware := by
    intro key n h
    cases key <;> simp [Inst.num, Inst.reg, Inst.binary] at h <;> omega
  have hbytes : encodeInst (Inst.binary .sub R9 R8 R9) 0 none =
      .ok { bytes := [0x4d, 0x29, 0xc1, 0x49, 0xf7, 0xd9] } := by
    decide
  exact ⟨_, hbytes, (encodeInst_computes 0 none hregs rfl).2.1 _ hbytes⟩

end Crabbit.X86
