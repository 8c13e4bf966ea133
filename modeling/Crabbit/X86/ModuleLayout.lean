/-
  Crabbit.X86.ModuleLayout

  The module the encode pass emits: functions, blocks, instructions and
  literals are at the offsets the sizes predicted, displacements lead to what
  they refer to, and fixups name the displacements they are to fill in.
-/

import Crabbit.X86.EncodeLayout

namespace Crabbit.X86

open Crabbit.Lib

/-! ## Literals -/

/-- The literals of a module's instructions, in the order the pass meets them. -/
def moduleLiterals (funcs : List PlacedFunc) : List (String × List UInt8) :=
  (funcs.flatMap PlacedFunc.insts).filterMap literalForInst

/-- Labels that are in the map keep their bytes, the others get the first ones. -/
theorem foldl_orInsert (entries : List (String × List UInt8)) :
    ∀ {literals : List (String × List UInt8)}, Aarch64.Sorted literals →
      Aarch64.Sorted (entries.foldl (fun literals entry =>
        Aarch64.orInsert entry.1 entry.2 literals) literals) ∧
      ∀ label, (entries.foldl (fun literals entry =>
        Aarch64.orInsert entry.1 entry.2 literals) literals).lookup label =
          (literals.lookup label).or (entries.lookup label) := by
  induction entries with
  | nil => exact fun h => ⟨h, fun label => Option.or_none.symm⟩
  | cons entry entries ih =>
    intro literals h
    obtain ⟨hsorted, hlookup⟩ := ih (h.orInsert entry.1 entry.2)
    refine ⟨hsorted, fun label => ?_⟩
    rw [List.foldl_cons, hlookup, Aarch64.lookup_orInsert h, Option.or_assoc, ← List.lookup_append]
    rfl

theorem collectLiterals_eq (literals : List (String × List UInt8)) (func : PlacedFunc) :
    collectLiterals literals func = (func.insts.filterMap literalForInst).foldl
      (fun literals entry => Aarch64.orInsert entry.1 entry.2 literals) literals := by
  rw [List.foldl_filterMap, collectLiterals]
  congr 1
  funext literals inst
  cases literalForInst inst <;> rfl

/-! ## The first walk -/

theorem push_ok {layout layout' : Layout} {func : PlacedFunc} (h : layout.push func = .ok layout') :
    ∃ size, func.codeSize = .ok size ∧
      layout'.offsets = (func.name, layout.nextOffset) :: layout.offsets ∧
      layout'.literals = collectLiterals layout.literals func ∧
      layout'.nextOffset = layout.nextOffset + size := by
  obtain ⟨size, hsize, h⟩ := ok_of_bind h
  cases h
  exact ⟨size, hsize, rfl, rfl, rfl⟩

/-- What the walk over functions adds to a layout. -/
structure Extends (funcs : List PlacedFunc) (layout layout' : Layout) : Prop where
  sorted : Aarch64.Sorted layout'.literals
  literals : ∀ label, layout'.literals.lookup label =
    (layout.literals.lookup label).or ((moduleLiterals funcs).lookup label)
  others : ∀ name, name ∉ funcs.map PlacedFunc.name →
    layout'.offsets.lookup name = layout.offsets.lookup name

/-- The walk records literals and offsets, and moves on by as many bytes as the
    functions are encoded to. -/
theorem foldlM_push {final : Layout} : ∀ {funcs : List PlacedFunc} {layout layout' : Layout}
    {pc : Nat} {e : List UInt8 × List BinaryFixup}, Aarch64.Sorted layout.literals →
    funcs.foldlM Layout.push layout = .ok layout' →
    emitSeq (encodeFunc final) pc funcs = .ok e →
    Extends funcs layout layout' ∧ layout'.nextOffset = layout.nextOffset + e.1.length
  | [], layout, layout', pc, e, hsorted, h, he => by
    cases h
    cases he
    exact ⟨⟨hsorted, fun label => Option.or_none.symm, fun _ _ => rfl⟩, rfl⟩
  | func :: funcs, layout, layout', pc, e, hsorted, h, he => by
    rw [List.foldlM_cons] at h
    obtain ⟨mid, hmid, h⟩ := ok_of_bind h
    obtain ⟨first, others, hfirst, hothers, rfl⟩ := emitSeq_cons_ok.mp he
    obtain ⟨size, hsize, hoffsets, hliterals, hnext⟩ := push_ok hmid
    cases (codeSize_of_encodeFunc hfirst).symm.trans hsize
    rw [collectLiterals_eq] at hliterals
    obtain ⟨hmidSorted, hmidLookup⟩ := foldl_orInsert (func.insts.filterMap literalForInst) hsorted
    rw [← hliterals] at hmidSorted hmidLookup
    obtain ⟨hext, hend⟩ := foldlM_push hmidSorted h hothers
    refine ⟨⟨hext.sorted, fun label => ?_, fun name hname => ?_⟩, ?_⟩
    · rw [hext.literals, hmidLookup, Option.or_assoc, ← List.lookup_append, moduleLiterals,
        moduleLiterals, List.flatMap_cons, List.filterMap_append]
    · rw [List.map_cons, List.mem_cons, not_or] at hname
      rw [hext.others name hname.2, hoffsets, List.lookup_cons, beq_eq_false_iff_ne.mpr hname.1]
    · rw [hend, hnext, List.length_append, Nat.add_assoc]

/-- The walk starts without literals. -/
theorem noLiterals : Aarch64.Sorted ({} : Layout).literals := List.Pairwise.nil

/-- The offset recorded for a name is that of the last function that has it. -/
theorem lookup_offsets {final layout layout' : Layout} {func : PlacedFunc}
    {before after : List PlacedFunc} {e : List UInt8 × List BinaryFixup}
    (hsorted : Aarch64.Sorted layout.literals)
    (h : (before ++ func :: after).foldlM Layout.push layout = .ok layout')
    (he : emitSeq (encodeFunc final) 0 (before ++ func :: after) = .ok e)
    (hlast : func.name ∉ after.map PlacedFunc.name) :
    ∃ first, emitSeq (encodeFunc final) 0 before = .ok first ∧
      layout'.offsets.lookup func.name = some (layout.nextOffset + first.1.length) := by
  rw [List.foldlM_append] at h
  obtain ⟨mid, hmid, h⟩ := ok_of_bind h
  obtain ⟨first, rest, hfirst, hrest, rfl⟩ := emitSeq_append_ok.mp he
  obtain ⟨hext, hnext⟩ := foldlM_push hsorted hmid hfirst
  rw [List.foldlM_cons] at h
  obtain ⟨mid', hmid', h⟩ := ok_of_bind h
  obtain ⟨size, hsize, hoffsets, hliterals, -⟩ := push_ok hmid'
  obtain ⟨part, others, -, hothers, -⟩ := emitSeq_cons_ok.mp hrest
  rw [collectLiterals_eq] at hliterals
  have hsorted' := (foldl_orInsert (func.insts.filterMap literalForInst) hext.sorted).1
  rw [← hliterals] at hsorted'
  obtain ⟨hext', -⟩ := foldlM_push hsorted' h hothers
  refine ⟨first, hfirst, ?_⟩
  rw [hext'.others _ hlast, hoffsets, List.lookup_cons_self, hnext]

/-! ## The module -/

/-- One instruction at `pc`: its encoding is there, as long as predicted; its
    displacement leads to the offset of what it refers to; its fixup is for the
    four zero bytes of its displacement; the literal it refers to is at the
    literal's offset, with the bytes the module first gave for the label. -/
structure InstPlaced (funcs : List PlacedFunc) (text : List UInt8)
    (refs : BinarySerializationContext) (pc : Nat) (inst : MachineInst) (e : BinaryEncoding) :
    Prop where
  encoded : encodeInst inst.toInst pc (some refs) = .ok e
  size : instLen inst.toInst = .ok e.bytes.length
  bytes : sliceAt text pc e.bytes.length = some e.bytes
  target : ∀ target, inst.targetOffset refs = some target → Displaces pc target e.bytes
  fixup : ∀ fixup ∈ e.fixups, fixup.offset = pc % 2 ^ 32 + 1 ∧
    inst.callee = some fixup.symbol ∧ sliceAt text (pc + 1) 4 = some [0, 0, 0, 0]
  literal : ∀ label bytes, literalForInst inst = some (label, bytes) → ∃ first offset,
    (moduleLiterals funcs).lookup label = some first ∧ refs.literalOffsets label = some offset ∧
    sliceAt text offset first.length = some first

/-- A function from `start` on: the blocks are at their recorded offsets, and
    the instructions of a block at the offsets their sizes give. -/
def FuncPlaced (funcs : List PlacedFunc) (text : List UInt8) (layout : Layout) (start : Nat)
    (func : PlacedFunc) : Prop :=
  ∃ offsets, blockOffsets start func.blocks = .ok offsets ∧
    ∀ before block after, func.blocks = before ++ block :: after →
      ∃ offset, offsets.lookup block.id = some offset ∧
        ∀ done inst rest, block.insts = done ++ inst :: rest →
          ∃ size e, instsSize done = .ok size ∧
            InstPlaced funcs text (layout.refs func offsets) (offset + size) inst e

/-- The module: every function is in the text at the offset recorded for its
    name, which is that of the last function of the name; every fixup of the
    module is one of an instruction. -/
structure ModulePlaced (funcs : List PlacedFunc) (layout : Layout) (encoded : EncodedModule) :
    Prop where
  func : ∀ before func after, funcs = before ++ func :: after → ∃ start,
    (func.name ∉ after.map PlacedFunc.name → layout.offsets.lookup func.name = some start) ∧
    FuncPlaced funcs encoded.text layout start func
  fixup : ∀ fixup ∈ encoded.fixups, ∃ pc, fixup.offset = pc % 2 ^ 32 + 1 ∧
    sliceAt encoded.text pc 5 = some [0xe8, 0, 0, 0, 0]

section Module

variable {funcs : List PlacedFunc} {layout : Layout} {encoded : EncodedModule}

theorem encodeModule_ok (h : encodeModule funcs = .ok encoded) : ∃ layout code,
    layoutFuncs funcs = .ok layout ∧ emitSeq (encodeFunc layout) 0 funcs = .ok code ∧
    encoded = ⟨code.1, layout.literals.flatMap Prod.snd, code.2⟩ := by
  obtain ⟨layout, hlayout, h⟩ := ok_of_bind h
  obtain ⟨code, hcode, h⟩ := ok_of_bind h
  cases h
  exact ⟨layout, code, hlayout, hcode, rfl⟩

/-- Every literal of the module is found at its recorded offset. -/
theorem literal_placed {code : List UInt8 × List BinaryFixup}
    (hlayout : layoutFuncs funcs = .ok layout)
    (hcode : emitSeq (encodeFunc layout) 0 funcs = .ok code) {label : String}
    {bytes : List UInt8} (hlit : (label, bytes) ∈ moduleLiterals funcs) :
    ∃ first offset, (moduleLiterals funcs).lookup label = some first ∧
      (Aarch64.literalOffsets layout.nextOffset layout.literals).lookup label = some offset ∧
      sliceAt (code.1 ++ layout.literals.flatMap Prod.snd) offset first.length = some first := by
  obtain ⟨hext, hnext⟩ := foldlM_push noLiterals hlayout hcode
  obtain ⟨first, hfirst⟩ : ∃ first, (moduleLiterals funcs).lookup label = some first := by
    cases hnone : (moduleLiterals funcs).lookup label with
    | some first => exact ⟨first, rfl⟩
    | none =>
      have := List.lookup_eq_none_iff.mp hnone (label, bytes) hlit
      exact absurd this (by simp)
  have hmap : layout.literals.lookup label = some first := by
    rw [hext.literals, hfirst]
    rfl
  obtain ⟨pre, post, hbytes, hlookup⟩ := Aarch64.lookup_literalOffsets layout.nextOffset hmap
  refine ⟨first, _, hfirst, hlookup, ?_⟩
  rw [sliceAt_eq_some_iff]
  refine ⟨code.1 ++ pre, post, ?_, ?_, rfl⟩
  · rw [hbytes]
    simp only [List.append_assoc]
  · rw [List.length_append, hnext, Nat.zero_add]

/-- A call outside the module, encoded at `pc`, has its displacement behind the
    opcode. -/
theorem fixup_placed {refs : BinarySerializationContext} {inst : Inst} {text : List UInt8}
    {pc : Nat} {e : BinaryEncoding} (henc : encodeInst inst pc (some refs) = .ok e)
    (htext : sliceAt text pc e.bytes.length = some e.bytes) {fixup : BinaryFixup}
    (hfixup : fixup ∈ e.fixups) :
    fixup.offset = pc % 2 ^ 32 + 1 ∧ inst.callee = some fixup.symbol ∧
      sliceAt text pc 5 = some [0xe8, 0, 0, 0, 0] ∧ sliceAt text (pc + 1) 4 = some [0, 0, 0, 0] := by
  obtain ⟨hoffset, hcallee, hbytes⟩ := (encodeInst_refers henc).2 fixup hfixup
  rw [hbytes] at htext
  exact ⟨hoffset, hcallee, htext, sliceAt_part (a := [0xe8]) (m := [0, 0, 0, 0]) (c := []) htext⟩

/-- A function whose bytes are in the text at its start is placed there. -/
theorem func_placed {code part : List UInt8 × List BinaryFixup} {start : Nat} {func : PlacedFunc}
    (hlayout : layoutFuncs funcs = .ok layout)
    (hcode : emitSeq (encodeFunc layout) 0 funcs = .ok code) (hfunc : func ∈ funcs)
    (hpart : encodeFunc layout start func = .ok part)
    (htext : sliceAt (code.1 ++ layout.literals.flatMap Prod.snd) start part.1.length =
      some part.1) :
    FuncPlaced funcs (code.1 ++ layout.literals.flatMap Prod.snd) layout start func := by
  obtain ⟨offsets, hoffsets, hpart⟩ := ok_of_bind hpart
  refine ⟨offsets, hoffsets, fun before block after hblocks => ?_⟩
  have hnodup : ((before ++ block :: after).map PlacedBlock.id).Nodup := hblocks ▸ func.nodup
  rw [hblocks] at hoffsets
  have hsplit : func.insts = before.flatMap PlacedBlock.insts ++ block.insts ++
      after.flatMap PlacedBlock.insts := by
    rw [PlacedFunc.insts, hblocks, List.flatMap_append, List.flatMap_cons, List.append_assoc]
  rw [hsplit] at hpart
  obtain ⟨front, own, post, hfront, hown, hbytes⟩ := emitSeq_split hpart
  have hlookup := lookup_blockOffsets hnodup hoffsets hfront
  have hblock : sliceAt (code.1 ++ layout.literals.flatMap Prod.snd) (start + front.1.length)
      own.1.length = some own.1 := sliceAt_part (hbytes ▸ htext)
  refine ⟨start + front.1.length, hlookup, fun done inst rest hinsts => ?_⟩
  have hinsts' : block.insts = done ++ [inst] ++ rest := by
    rw [hinsts, List.append_assoc, List.singleton_append]
  rw [hinsts'] at hown
  obtain ⟨first, single, last, hfirst, hsingle, hbytes'⟩ := emitSeq_split hown
  obtain ⟨e, he, rfl⟩ := encodeAt_ok (emitSeq_singleton.mp hsingle)
  have hinst := sliceAt_part (hbytes' ▸ hblock)
  refine ⟨first.1.length, e, instsSize_of_emitSeq hfirst, he, instLen_of_encodeInst he, hinst,
    (encodeInst_refers he).1, fun fixup hfixup => ?_, fun label bytes hlit => ?_⟩
  · obtain ⟨hoffset, hcallee, -, hzero⟩ := fixup_placed he hinst hfixup
    exact ⟨hoffset, hcallee, hzero⟩
  · have hmem : inst ∈ func.insts := by
      rw [hsplit, hinsts']
      simp only [List.mem_append, List.mem_singleton, true_or, or_true]
    exact literal_placed hlayout hcode (List.mem_filterMap.mpr
      ⟨inst, List.mem_flatMap.mpr ⟨func, hfunc, hmem⟩, hlit⟩)

/-- What the pass emits is placed as it was laid out. -/
theorem modulePlaced (h : encodeModule funcs = .ok encoded) :
    ∃ layout, layoutFuncs funcs = .ok layout ∧ ModulePlaced funcs layout encoded := by
  obtain ⟨layout, code, hlayout, hcode, rfl⟩ := encodeModule_ok h
  refine ⟨layout, hlayout, ⟨fun before func after hfuncs => ?_, fun fixup hfixup => ?_⟩⟩
  · have hsplit : funcs = before ++ [func] ++ after := by
      rw [hfuncs, List.append_assoc, List.singleton_append]
    have hcode' := hcode
    rw [hsplit] at hcode'
    obtain ⟨first, part, post, hfirst, hpart, hbytes⟩ := emitSeq_split hcode'
    refine ⟨0 + first.1.length, fun hlast => ?_, ?_⟩
    · rw [hfuncs] at hlayout hcode
      obtain ⟨first', hfirst', hlookup⟩ :=
        lookup_offsets noLiterals hlayout hcode hlast
      cases hfirst.symm.trans hfirst'
      exact hlookup
    · apply func_placed hlayout hcode
      · rw [hfuncs]
        exact List.mem_append_right _ List.mem_cons_self
      · exact emitSeq_singleton.mp hpart
      · rw [Nat.zero_add]
        exact sliceAt_append_right (sliceAt_eq_some_iff.mpr ⟨_, _, hbytes, rfl, rfl⟩) _
  · -- The fixup was made by an instruction of a function.
    obtain ⟨func, -, first, part, post, hpart, hbytes, hmem⟩ := emitSeq_note hcode hfixup
    obtain ⟨offsets, -, hpart⟩ := ok_of_bind hpart
    obtain ⟨inst, -, done, own, rest, hown, hbytes', hmem'⟩ := emitSeq_note hpart hmem
    obtain ⟨e, he, rfl⟩ := encodeAt_ok hown
    refine ⟨0 + first.length + done.length, ?_⟩
    have htext : sliceAt (code.1 ++ layout.literals.flatMap Prod.snd)
        (0 + first.length + done.length) e.bytes.length = some e.bytes := by
      rw [Nat.zero_add]
      apply sliceAt_append_right
      exact sliceAt_part (hbytes' ▸ sliceAt_eq_some_iff.mpr ⟨_, _, hbytes, rfl, rfl⟩)
    obtain ⟨hoffset, -, hcall, -⟩ := fixup_placed he htext hmem'
    exact ⟨hoffset, hcall⟩

end Module

/-- The predicted length of an instruction is the length it is encoded to,
    whatever its position and targets; so what the pass emits is placed as it
    was laid out. -/
theorem instLen_exact :
    (∀ (inst : Inst) (pc : Nat) (refs : BinarySerializationContext) (e : BinaryEncoding),
      encodeInst inst pc (some refs) = .ok e → instLen inst = .ok e.bytes.length) ∧
    ∀ (funcs : List PlacedFunc) (encoded : EncodedModule), encodeModule funcs = .ok encoded →
      ∃ layout, layoutFuncs funcs = .ok layout ∧ ModulePlaced funcs layout encoded :=
  ⟨fun _ _ _ _ => instLen_of_encodeInst, fun _ _ => modulePlaced⟩

/-- A function that calls one outside the module, jumps back and forth and
    returns. -/
def callsOut : PlacedFunc where
  name := "f"
  blocks := [⟨0, [{ opcode := .call, callee := some "g" }, { opcode := .jmp, target := some 1 }]⟩,
    ⟨1, [{ opcode := .ret }]⟩]
  blockName _ := "block"
  nodup := by decide

theorem instLen_exact_callsOut :
    instLen { opcode := .jmp, target := some 1 } = .ok 5 ∧
    ∃ layout, layoutFuncs [callsOut] = .ok layout ∧ ModulePlaced [callsOut] layout
      ⟨[0xe8, 0, 0, 0, 0, 0xe9, 0, 0, 0, 0, 0xc3], [], [⟨1, "g", .branch32⟩]⟩ :=
  ⟨instLen_exact.1 _ 5 ⟨fun _ => none, fun _ => some 10, fun _ => none, fun _ => "block"⟩
      ⟨[0xe9, 0, 0, 0, 0], []⟩ (by rfl),
    instLen_exact.2 [callsOut] _ (by rfl)⟩

end Crabbit.X86
