/-
  Crabbit.X86.EncodeLayout

  The length the encoder is predicted to emit is the length it emits, whatever
  the targets: relative targets always take four bytes.  So the offsets the
  encode pass lays out beforehand are the positions of what they name.
-/

import Crabbit.Aarch64.EncodeSound
import Crabbit.X86.Encode

namespace Crabbit.X86

open Crabbit.Lib

/-! ## One instruction -/

@[simp]
theorem length_i32Bytes (x : Int) : (i32Bytes x).length = 4 := length_toLE 4 _

/-- With every target at offset 0 a relative target is in range. -/
theorem rel32_sizing {len : Nat} (h : len < 16) (mnemonic : String) :
    rel32 0 0 len mnemonic = .ok (-(len : Int)) := by
  have hdelta : asI64 (asI64 (asI64 (0 : Nat) - asI64 (0 : Nat)) - len) = -(len : Int) := by
    have hzero : asI64 (asI64 (0 : Nat) - asI64 (0 : Nat)) = 0 := by decide
    rw [hzero, Int.zero_sub, asI64, Int.bmod_eq_of_le]
    · omega
    · omega
  rw [rel32, hdelta]
  exact if_pos ⟨by omega, by omega⟩

theorem length_emitLeaRip {rd : UInt8} {target pc : Nat} {mnemonic : String} {bytes : List UInt8}
    (h : emitLeaRip rd target pc mnemonic = .ok bytes) : bytes.length = 7 := by
  obtain ⟨rel, -, h⟩ := ok_of_bind h
  cases h
  rw [List.length_append, length_i32Bytes]
  rfl

theorem emitLeaRip_sizing (rd : UInt8) (mnemonic : String) :
    ∃ bytes, emitLeaRip rd 0 0 mnemonic = .ok bytes ∧ bytes.length = 7 := by
  have h : emitLeaRip rd 0 0 mnemonic =
      .ok ([rex true (rd ≥ 8) false false, 0x8d, modrm 0b00 (rd &&& 7) 0b101] ++
        i32Bytes (-(7 : Nat))) := by
    rw [emitLeaRip, rel32_sizing (by decide : 7 < 16)]
    rfl
  exact ⟨_, h, length_emitLeaRip h⟩

theorem resolve_sizing (key what : String) : resolve none key what = .ok 0 := rfl

/-- The encoder of an op that refers to a target takes as many bytes at offset 0
    with every target at offset 0. -/
theorem encodeReferring_sizing {inst : Inst} {pc : Nat} {refs : BinarySerializationContext}
    {e : BinaryEncoding} (h : encodeReferring inst pc (some refs) = .ok e) :
    ∃ e', encodeReferring inst 0 none = .ok e' ∧ e'.bytes.length = e.bytes.length := by
  rw [encodeReferring] at h
  simp only [encodeReferring]
  split at h
  · obtain ⟨rd, hrd, h⟩ := ok_of_bind h
    obtain ⟨label, hlabel, h⟩ := ok_of_bind h
    obtain ⟨target, -, h⟩ := ok_of_bind h
    obtain ⟨bytes, hbytes, h⟩ := ok_of_bind h
    obtain ⟨bytes', hbytes', hlen⟩ := emitLeaRip_sizing rd inst.opcode.mnemonic
    cases h
    refine ⟨⟨bytes', []⟩, ?_, hlen.trans (length_emitLeaRip hbytes).symm⟩
    simp only [hrd, hlabel, bind, Except.bind, Option.map_none, resolve_sizing, hbytes', pure,
      Except.pure]
  · obtain ⟨rd, hrd, h⟩ := ok_of_bind h
    obtain ⟨symbol, hsymbol, h⟩ := ok_of_bind h
    obtain ⟨target, -, h⟩ := ok_of_bind h
    obtain ⟨bytes, hbytes, h⟩ := ok_of_bind h
    obtain ⟨bytes', hbytes', hlen⟩ := emitLeaRip_sizing rd inst.opcode.mnemonic
    cases h
    refine ⟨⟨bytes', []⟩, ?_, hlen.trans (length_emitLeaRip hbytes).symm⟩
    simp only [hrd, hsymbol, bind, Except.bind, Option.map_none, resolve_sizing, hbytes', pure,
      Except.pure]
  · -- Sizing takes every callee to be in the module.
    obtain ⟨callee, hcallee, h⟩ := ok_of_bind h
    refine ⟨⟨[0xe8] ++ i32Bytes (-(5 : Nat)), []⟩, ?_, ?_⟩
    · simp only [hcallee, bind, Except.bind, Option.elim_none, rel32_sizing (by decide : 5 < 16),
        pure, Except.pure]
    · split at h
      · obtain ⟨rel, -, h⟩ := ok_of_bind h
        cases h
        simp only [List.length_append, length_i32Bytes]
      · split at h
        · cases h
        · cases h
          simp only [List.length_append, length_i32Bytes]
  · obtain ⟨target, -, h⟩ := ok_of_bind h
    obtain ⟨rel, -, h⟩ := ok_of_bind h
    cases h
    refine ⟨⟨[0xe9] ++ i32Bytes (-(5 : Nat)), []⟩, ?_, ?_⟩
    · simp only [branchTarget, bind, Except.bind, rel32_sizing (by decide : 5 < 16), pure,
        Except.pure]
    · simp only [List.length_append, length_i32Bytes]
  · obtain ⟨target, -, h⟩ := ok_of_bind h
    obtain ⟨cond, hcond, h⟩ := ok_of_bind h
    obtain ⟨rel, -, h⟩ := ok_of_bind h
    cases h
    refine ⟨⟨[0x0f, 0x80 + UInt8.ofNat cond.encoding] ++ i32Bytes (-(6 : Nat)), []⟩, ?_, ?_⟩
    · simp only [branchTarget, hcond, bind, Except.bind, rel32_sizing (by decide : 6 < 16), pure,
        Except.pure]
    · simp only [List.length_append, length_i32Bytes, List.length_cons, List.length_nil]
  · obtain ⟨rn, hrn, h⟩ := ok_of_bind h
    obtain ⟨target, -, h⟩ := ok_of_bind h
    obtain ⟨rel, -, h⟩ := ok_of_bind h
    cases h
    refine ⟨⟨emitAlu 0x85 rn rn ++ [0x0f, 0x85] ++ i32Bytes (-(9 : Nat)), []⟩, ?_, ?_⟩
    · simp only [hrn, branchTarget, bind, Except.bind, rel32_sizing (by decide : 9 < 16), pure,
        Except.pure]
    · simp only [List.length_append, length_i32Bytes]
  · cases h
    exact ⟨_, rfl, rfl⟩

/-- The length predicted for an instruction is the length it is encoded to, at
    every position and with whatever targets. -/
theorem instLen_of_encodeInst {inst : Inst} {pc : Nat} {refs : BinarySerializationContext}
    {e : BinaryEncoding} (h : encodeInst inst pc (some refs) = .ok e) :
    instLen inst = .ok e.bytes.length := by
  rw [encodeInst] at h
  rw [instLen, encodeInst]
  split at h
  · next hrefers =>
    obtain ⟨e', he', hlen⟩ := encodeReferring_sizing h
    rw [if_pos hrefers, he', ← hlen]
    rfl
  · next hrefers =>
    rw [if_neg hrefers, h]
    rfl

/-! ## Where a target is -/

/-- The offset an instruction refers to, as the references have it. -/
def Inst.targetOffset (inst : Inst) (refs : BinarySerializationContext) : Option Nat :=
  match inst.opcode with
  | .adrLiteral => inst.literalLabel.bind refs.literalOffsets
  | .adrFunction | .call => inst.callee.bind refs.functionOffsets
  | .jmp | .jcc | .testJnz => inst.target.bind refs.blockOffsets
  | _ => none

theorem targetOffset_literal {inst : Inst} (h : inst.opcode = .adrLiteral)
    (refs : BinarySerializationContext) :
    inst.targetOffset refs = inst.literalLabel.bind refs.literalOffsets := by
  rw [Inst.targetOffset, h]

theorem targetOffset_callee {inst : Inst} (h : inst.opcode = .adrFunction ∨ inst.opcode = .call)
    (refs : BinarySerializationContext) :
    inst.targetOffset refs = inst.callee.bind refs.functionOffsets := by
  rw [Inst.targetOffset]
  rcases h with h | h <;> rw [h]

theorem targetOffset_branch {inst : Inst}
    (h : inst.opcode = .jmp ∨ inst.opcode = .jcc ∨ inst.opcode = .testJnz)
    (refs : BinarySerializationContext) :
    inst.targetOffset refs = inst.target.bind refs.blockOffsets := by
  rw [Inst.targetOffset]
  rcases h with h | h | h <;> rw [h]

/-- The bytes end in a displacement that leads from behind the instruction to
    the target. -/
def Displaces (pc target : Nat) (bytes : List UInt8) : Prop :=
  ∃ body rel, bytes = body ++ i32Bytes rel ∧ -2 ^ 31 ≤ rel ∧ rel < 2 ^ 31 ∧
    ((pc : Int) + bytes.length + rel) % 2 ^ 64 = target % 2 ^ 64

theorem asI64_emod (x : Int) : asI64 x % 2 ^ 64 = x % 2 ^ 64 :=
  Int.bmod_emod

theorem rel32_ok {target pc len : Nat} {mnemonic : String} {rel : Int}
    (h : rel32 target pc len mnemonic = .ok rel) :
    -2 ^ 31 ≤ rel ∧ rel < 2 ^ 31 ∧ ((pc : Int) + len + rel) % 2 ^ 64 = target % 2 ^ 64 := by
  rw [rel32] at h
  split at h
  case isFalse => cases h
  next hrange =>
    have hrel := Except.ok.inj h
    have houter := asI64_emod (asI64 (asI64 target - asI64 pc) - len)
    have hinner := asI64_emod (asI64 target - asI64 pc)
    have htarget := asI64_emod target
    have hpc := asI64_emod pc
    rw [hrel] at hrange houter
    refine ⟨hrange.1, hrange.2, ?_⟩
    generalize asI64 (asI64 target - asI64 pc) = delta at houter hinner
    generalize asI64 (target : Int) = t at hinner htarget
    generalize asI64 (pc : Int) = p at hinner hpc
    omega

theorem displaces_of_rel32 {target pc len : Nat} {mnemonic : String} {rel : Int}
    {body : List UInt8} (h : rel32 target pc len mnemonic = .ok rel)
    (hlen : body.length + 4 = len) : Displaces pc target (body ++ i32Bytes rel) := by
  obtain ⟨hlow, hhigh, hlands⟩ := rel32_ok h
  refine ⟨body, rel, rfl, hlow, hhigh, ?_⟩
  rw [List.length_append, length_i32Bytes, hlen]
  exact hlands

theorem displaces_emitLeaRip {rd : UInt8} {target pc : Nat} {mnemonic : String}
    {bytes : List UInt8} (h : emitLeaRip rd target pc mnemonic = .ok bytes) :
    Displaces pc target bytes := by
  obtain ⟨rel, hrel, h⟩ := ok_of_bind h
  cases h
  exact displaces_of_rel32 hrel rfl

theorem resolve_ok {offsets : String → Option Nat} {key what : String} {target : Nat}
    (h : resolve (some offsets) key what = .ok target) : offsets key = some target := by
  rw [resolve] at h
  split at h
  · next offset hoffset =>
    cases h
    exact hoffset
  · cases h

theorem branchTarget_ok {inst : Inst} {refs : BinarySerializationContext} {target : Nat}
    (h : branchTarget inst (some refs) = .ok target) :
    inst.target.bind refs.blockOffsets = some target := by
  simp only [branchTarget] at h
  split at h
  · cases h
  · next block hblock =>
    split at h
    · next offset hoffset =>
      cases h
      rw [hblock]
      exact hoffset
    · cases h

theorem unwrap_ok {attr : Option String} {value : String} (h : unwrap attr = .ok value) :
    attr = some value := by
  cases attr with
  | none => cases h
  | some value' =>
    cases h
    rfl

/-- What an encoded reference says: its displacement leads to the offset of its
    target, and only a call to a function outside the module has none. That call
    has a zero displacement, which its fixup names. -/
theorem encodeReferring_refers {inst : Inst} {pc : Nat} {refs : BinarySerializationContext}
    {e : BinaryEncoding} (hrefers : inst.opcode.refers = true)
    (h : encodeReferring inst pc (some refs) = .ok e) :
    (∃ target, inst.targetOffset refs = some target ∧ Displaces pc target e.bytes ∧
      e.fixups = []) ∨
    (inst.targetOffset refs = none ∧ e.bytes = [0xe8, 0, 0, 0, 0] ∧
      ∃ callee, inst.callee = some callee ∧ e.fixups = [⟨pc % 2 ^ 32 + 1, callee, .branch32⟩]) := by
  rw [encodeReferring] at h
  split at h
  · next hop =>
    obtain ⟨rd, -, h⟩ := ok_of_bind h
    obtain ⟨label, hlabel, h⟩ := ok_of_bind h
    obtain ⟨target, htarget, h⟩ := ok_of_bind h
    obtain ⟨bytes, hbytes, h⟩ := ok_of_bind h
    cases h
    left
    refine ⟨target, ?_, displaces_emitLeaRip hbytes, rfl⟩
    rw [targetOffset_literal hop, unwrap_ok hlabel]
    exact resolve_ok htarget
  · next hop =>
    obtain ⟨rd, -, h⟩ := ok_of_bind h
    obtain ⟨symbol, hsymbol, h⟩ := ok_of_bind h
    obtain ⟨target, htarget, h⟩ := ok_of_bind h
    obtain ⟨bytes, hbytes, h⟩ := ok_of_bind h
    cases h
    left
    refine ⟨target, ?_, displaces_emitLeaRip hbytes, rfl⟩
    rw [targetOffset_callee (Or.inl hop), unwrap_ok hsymbol]
    exact resolve_ok htarget
  · next hop =>
    obtain ⟨callee, hcallee, h⟩ := ok_of_bind h
    rw [targetOffset_callee (Or.inr hop), unwrap_ok hcallee]
    split at h
    · next target htarget =>
      obtain ⟨rel, hrel, h⟩ := ok_of_bind h
      cases h
      exact Or.inl ⟨target, htarget, displaces_of_rel32 hrel rfl, rfl⟩
    · next hnone =>
      split at h
      · cases h
      · cases h
        exact Or.inr ⟨hnone, rfl, callee, rfl, rfl⟩
  · next hop =>
    obtain ⟨target, htarget, h⟩ := ok_of_bind h
    obtain ⟨rel, hrel, h⟩ := ok_of_bind h
    cases h
    rw [targetOffset_branch (Or.inl hop)]
    exact Or.inl ⟨target, branchTarget_ok htarget, displaces_of_rel32 hrel rfl, rfl⟩
  · next hop =>
    obtain ⟨target, htarget, h⟩ := ok_of_bind h
    obtain ⟨cond, -, h⟩ := ok_of_bind h
    obtain ⟨rel, hrel, h⟩ := ok_of_bind h
    cases h
    rw [targetOffset_branch (Or.inr (Or.inl hop))]
    exact Or.inl ⟨target, branchTarget_ok htarget, displaces_of_rel32 hrel rfl, rfl⟩
  · next hop =>
    obtain ⟨rn, -, h⟩ := ok_of_bind h
    obtain ⟨target, htarget, h⟩ := ok_of_bind h
    obtain ⟨rel, hrel, h⟩ := ok_of_bind h
    cases h
    rw [targetOffset_branch (Or.inr (Or.inr hop))]
    exact Or.inl ⟨target, branchTarget_ok htarget, displaces_of_rel32 hrel rfl, rfl⟩
  · next hliteral hfunction hcall hjmp hjcc htest =>
    unfold X86_64Opcode.refers at hrefers
    split at hrefers
    · next hop => exact absurd hop hliteral
    · next hop => exact absurd hop hfunction
    · next hop => exact absurd hop hcall
    · next hop => exact absurd hop hjmp
    · next hop => exact absurd hop hjcc
    · next hop => exact absurd hop htest
    · cases hrefers

theorem refers_of_targetOffset {inst : Inst} {refs : BinarySerializationContext} {target : Nat}
    (h : inst.targetOffset refs = some target) : inst.opcode.refers = true := by
  unfold Inst.targetOffset at h
  split at h
  · next hop => rw [hop, X86_64Opcode.refers]
  · next hop => rw [hop, X86_64Opcode.refers]
  · next hop => rw [hop, X86_64Opcode.refers]
  · next hop => rw [hop, X86_64Opcode.refers]
  · next hop => rw [hop, X86_64Opcode.refers]
  · next hop => rw [hop, X86_64Opcode.refers]
  · cases h

/-- Every encoded displacement leads to the offset of what the instruction
    refers to, and every fixup names the zero displacement of its call. -/
theorem encodeInst_refers {inst : Inst} {pc : Nat} {refs : BinarySerializationContext}
    {e : BinaryEncoding} (h : encodeInst inst pc (some refs) = .ok e) :
    (∀ target, inst.targetOffset refs = some target → Displaces pc target e.bytes) ∧
    ∀ fixup ∈ e.fixups, fixup.offset = pc % 2 ^ 32 + 1 ∧ inst.callee = some fixup.symbol ∧
      e.bytes = [0xe8, 0, 0, 0, 0] := by
  rw [encodeInst] at h
  split at h
  · next hrefers =>
    rcases encodeReferring_refers hrefers h with
      ⟨target, htarget, hlands, hfixups⟩ | ⟨hnone, hbytes, callee, hcallee, hfixups⟩
    · refine ⟨fun target' htarget' => ?_, fun fixup hfixup => ?_⟩
      · cases htarget.symm.trans htarget'
        exact hlands
      · rw [hfixups] at hfixup
        exact absurd hfixup List.not_mem_nil
    · refine ⟨fun target' htarget' => ?_, fun fixup hfixup => ?_⟩
      · cases hnone.symm.trans htarget'
      · rw [hfixups, List.mem_singleton] at hfixup
        rw [hfixup]
        exact ⟨rfl, hcallee, hbytes⟩
  · next hstraight =>
    obtain ⟨bytes, hbytes, he⟩ : ∃ bytes, encodeStraight inst = .ok bytes ∧ e = ⟨bytes, []⟩ := by
      cases hb : encodeStraight inst with
      | error error =>
        rw [hb] at h
        cases h
      | ok bytes =>
        rw [hb] at h
        cases h
        exact ⟨bytes, rfl, rfl⟩
    refine ⟨fun target htarget => ?_, fun fixup hfixup => ?_⟩
    · exact absurd (refers_of_targetOffset htarget) hstraight
    · rw [he] at hfixup
      exact absurd hfixup List.not_mem_nil

/-! ## Positions -/

theorem encodeAt_ok {refs : BinarySerializationContext} {pc : Nat} {inst : MachineInst}
    {part : List UInt8 × List BinaryFixup} (h : encodeAt refs pc inst = .ok part) :
    ∃ e, encodeInst inst.toInst pc (some refs) = .ok e ∧ part = (e.bytes, e.fixups) := by
  rw [encodeAt] at h
  cases henc : encodeInst inst.toInst pc (some refs) with
  | error error =>
    rw [henc] at h
    cases h
  | ok e =>
    rw [henc] at h
    cases h
    exact ⟨e, rfl, rfl⟩

theorem instLen_of_encodeAt {refs : BinarySerializationContext} {pc : Nat} {inst : MachineInst}
    {part : List UInt8 × List BinaryFixup} (h : encodeAt refs pc inst = .ok part) :
    instLen inst.toInst = .ok part.1.length := by
  obtain ⟨e, he, rfl⟩ := encodeAt_ok h
  exact instLen_of_encodeInst he

/-- The predicted size of instructions is the number of their bytes. -/
theorem instsSize_of_emitSeq {refs : BinarySerializationContext} {pc : Nat}
    {insts : List MachineInst} {e : List UInt8 × List BinaryFixup}
    (h : emitSeq (encodeAt refs) pc insts = .ok e) : instsSize insts = .ok e.1.length := by
  obtain ⟨sizes, hsizes, hsum⟩ :=
    sizes_of_emitSeq (fun inst : MachineInst => instLen inst.toInst)
      (fun inst _ pc e h => instLen_of_encodeAt h) h
  rw [instsSize, hsizes, ← hsum]
  rfl

/-- The offset recorded for a block is the position of its first byte. -/
theorem lookup_blockOffsets {refs : BinarySerializationContext} {block : PlacedBlock}
    {after : List PlacedBlock} : ∀ {before : List PlacedBlock} {pc : Nat}
    {offsets : List (Nat × Nat)} {e : List UInt8 × List BinaryFixup},
    ((before ++ block :: after).map PlacedBlock.id).Nodup →
    blockOffsets pc (before ++ block :: after) = .ok offsets →
    emitSeq (encodeAt refs) pc (before.flatMap PlacedBlock.insts) = .ok e →
    offsets.lookup block.id = some (pc + e.1.length)
  | [], pc, offsets, e, _, hoffsets, he => by
    obtain ⟨size, -, hoffsets⟩ := ok_of_bind hoffsets
    obtain ⟨others, -, hoffsets⟩ := ok_of_bind hoffsets
    cases hoffsets
    cases he
    exact List.lookup_cons_self
  | first :: before, pc, offsets, e, hnodup, hoffsets, he => by
    obtain ⟨size, hsize, hoffsets⟩ := ok_of_bind hoffsets
    obtain ⟨others, hothers, hoffsets⟩ := ok_of_bind hoffsets
    cases hoffsets
    rw [List.flatMap_cons] at he
    obtain ⟨front, rest, hfront, hrest, rfl⟩ := emitSeq_append_ok.mp he
    cases (instsSize_of_emitSeq hfront).symm.trans hsize
    rw [List.cons_append, List.map_cons, List.nodup_cons] at hnodup
    have hne : (block.id == first.id) = false := by
      rw [beq_eq_false_iff_ne]
      intro heq
      apply hnodup.1
      rw [← heq]
      exact List.mem_map_of_mem (List.mem_append_right _ List.mem_cons_self)
    rw [List.lookup_cons, hne, lookup_blockOffsets hnodup.2 hothers hrest, List.length_append,
      Nat.add_assoc]

/-- The predicted sizes of blocks add up to the number of their bytes. -/
theorem sizes_of_blocks {refs : BinarySerializationContext} {blocks : List PlacedBlock} {pc : Nat}
    {e : List UInt8 × List BinaryFixup}
    (h : emitSeq (encodeAt refs) pc (blocks.flatMap PlacedBlock.insts) = .ok e) :
    (blocks.mapM fun block => instsSize block.insts).map List.sum = .ok e.1.length := by
  induction blocks generalizing pc e with
  | nil =>
    cases h
    rfl
  | cons block blocks ih =>
    rw [List.flatMap_cons] at h
    obtain ⟨front, rest, hfront, hrest, rfl⟩ := emitSeq_append_ok.mp h
    have hsizes := ih hrest
    rw [List.mapM_cons, instsSize_of_emitSeq hfront]
    cases hothers : blocks.mapM fun block => instsSize block.insts with
    | error error =>
      rw [hothers] at hsizes
      cases hsizes
    | ok sizes =>
      rw [hothers] at hsizes
      have hsum : sizes.sum = rest.1.length := Except.ok.inj hsizes
      show Except.ok (front.1.length :: sizes).sum = _
      rw [List.sum_cons, hsum, List.length_append]

/-- The predicted size of a function is the number of its bytes. -/
theorem codeSize_of_encodeFunc {layout : Layout} {pc : Nat} {func : PlacedFunc}
    {e : List UInt8 × List BinaryFixup} (h : encodeFunc layout pc func = .ok e) :
    func.codeSize = .ok e.1.length := by
  obtain ⟨offsets, -, h⟩ := ok_of_bind h
  exact sizes_of_blocks h

end Crabbit.X86
