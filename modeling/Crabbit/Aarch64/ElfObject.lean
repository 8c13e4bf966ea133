/-
  Crabbit.Aarch64.ElfObject

  The parts collected from a module keep the promises the ELF writer relies
  on, so the object file of a module reads back as its parts.
-/

import Crabbit.Aarch64.ElfSound
import Crabbit.Aarch64.ObjectResolve

namespace Crabbit.Aarch64

open Crabbit.Lib Crabbit.Lib.Elf64

variable {os : TargetOs} {m : ObjectModule}

/-! ## Alignments -/

theorem align_appendAll_pow (os : TargetOs) (data : List (String × DataAttr)) (sec : DataSection)
    (hsec : sec.align = 0 ∨ ∃ k, sec.align = 2 ^ k) :
    (appendAll os sec data).align = 0 ∨ ∃ k, (appendAll os sec data).align = 2 ^ k := by
  induction data generalizing sec with
  | nil => exact hsec
  | cons d rest ih =>
    exact ih _ (Or.inr (align_appendGlobal os (os.symbolName d.1) d.2 hsec).1)

theorem aligned_collectObjectParts (os : TargetOs) (m : ObjectModule) :
    (collectObjectParts os m).Aligned := by
  intro kind sec hsec
  obtain ⟨rfl, -⟩ := sections_eq_some.mp hsec
  rw [collectItems_sections]
  rcases align_appendAll_pow os (dataOf kind m.items) {} (Or.inl rfl) with
    h | ⟨k, h⟩
  · exact ⟨0, by rw [h]; rfl⟩
  · exact ⟨k, by rw [h]; exact Nat.max_eq_left Nat.one_le_two_pow⟩

/-! ## Zero-initialized thread-local storage -/

theorem bytes_appendAll_zero {data : List (String × DataAttr)} {sec : DataSection}
    (hsec : ∀ b ∈ sec.bytes, b = 0) (hdata : ∀ d ∈ data, ∀ b ∈ d.2.bytes, b = 0) :
    ∀ b ∈ (appendAll os sec data).bytes, b = 0 := by
  induction data generalizing sec with
  | nil => exact hsec
  | cons d rest ih =>
    apply ih _ fun d' hd' => hdata d' (List.mem_cons_of_mem _ hd')
    intro b hb
    rcases List.mem_append.mp hb with hb | hb
    · rcases List.mem_append.mp hb with hb | hb
      · exact hsec b hb
      · exact List.eq_of_mem_replicate hb
    · exact hdata d List.mem_cons_self b hb

/-- An initializer goes to `.tbss` only if it is all zeros without a pointer. -/
theorem of_sectionKind_tbss {init : DataAttr} {threadLocal : Bool}
    (h : init.sectionKind threadLocal = .tbss) :
    init.relocs = [] ∧ ∀ b ∈ init.bytes, b = 0 := by
  rw [DataAttr.sectionKind] at h
  split at h
  · split at h
    · next hzero =>
      rw [Bool.and_eq_true, List.isEmpty_iff, List.all_eq_true] at hzero
      exact ⟨hzero.1, fun b hb => beq_iff_eq.mp (hzero.2 b hb)⟩
    · cases h
  · split at h
    · cases h
    · split at h <;> cases h

theorem dataOf_tbss {items : List ModuleItem} {d : String × DataAttr}
    (h : d ∈ dataOf .tbss items) : d.2.relocs = [] ∧ ∀ b ∈ d.2.bytes, b = 0 := by
  obtain ⟨item, -, hitem⟩ := List.mem_filterMap.mp h
  obtain ⟨g, -, -, -, hkind⟩ := mem_data?_iff.mp hitem
  exact of_sectionKind_tbss hkind

theorem sections_tbss {sec : DataSection}
    (hsec : (collectObjectParts os m).sections .tbss = some sec) :
    sec.relocs = [] ∧ ∀ b ∈ sec.bytes, b = 0 := by
  obtain ⟨rfl, -⟩ := sections_eq_some.mp hsec
  rw [collectItems_sections]
  constructor
  · apply List.eq_nil_iff_forall_not_mem.mpr
    intro reloc hreloc
    rcases mem_relocs_appendAll.mp hreloc with h | ⟨before, d, after, r, hdata, hr, -⟩
    · cases h
    · have hd : d ∈ dataOf .tbss m.items := by
        rw [hdata]
        exact List.mem_append_right _ List.mem_cons_self
      rw [(dataOf_tbss hd).1] at hr
      cases hr
  · exact bytes_appendAll_zero (fun b hb => absurd hb List.not_mem_nil)
      fun d hd => (dataOf_tbss hd).2

/-! ## Symbols for relocations -/

theorem mem_symbolNames_of_symbol {parts : ObjectParts} {s : Symbol} (h : s ∈ parts.symbols) :
    s.name ∈ parts.symbolNames :=
  List.mem_map.mpr ⟨parts.textSymbol s, List.mem_append_left _ (List.mem_map_of_mem h), rfl⟩

theorem mem_symbolNames_of_data {parts : ObjectParts} {kind : SectionKind} {s : DataSymbol}
    (h : s ∈ parts.dataSymbols kind) : s.name ∈ parts.symbolNames :=
  List.mem_map.mpr ⟨parts.dataSymbol kind s, List.mem_append_right _
    (List.mem_flatMap.mpr ⟨kind, kind.mem_all, List.mem_map_of_mem h⟩), rfl⟩

theorem mem_symbolNames_of_target {target : String}
    (h : target ∈ relocationTargets os m.fixups (collectItems os m.items).sections) :
    target ∈ (collectObjectParts os m).symbolNames := by
  obtain ⟨extra, hsymbols, -, hall⟩ := exists_extra os m
  rcases hall target h with ⟨s, hs, rfl⟩ | ⟨kind, hkind⟩
  · rw [← hsymbols] at hs
    exact mem_symbolNames_of_symbol hs
  · obtain ⟨s, hs, hname⟩ := List.any_eq_true.mp hkind
    have hsec := sections_eq_some.mpr ⟨rfl, List.ne_nil_of_mem hs⟩
    have hmem : s ∈ (collectObjectParts os m).dataSymbols kind := by
      rw [ObjectParts.dataSymbols, hsec]
      exact hs
    rw [← beq_iff_eq.mp hname]
    exact mem_symbolNames_of_data hmem

theorem registered_collectObjectParts (os : TargetOs) (m : ObjectModule) :
    ∀ name ∈ (collectObjectParts os m).relocatedNames,
      name ∈ (collectObjectParts os m).symbolNames := by
  intro name hname
  apply mem_symbolNames_of_target
  rcases List.mem_append.mp hname with hname | hname
  · obtain ⟨fixup, hfixup, rfl⟩ := List.mem_map.mp hname
    obtain ⟨source, hsource, rfl⟩ := List.mem_map.mp hfixup
    exact List.mem_append_left _ (List.mem_map_of_mem hsource)
  · obtain ⟨kind, -, hname⟩ := List.mem_flatMap.mp hname
    obtain ⟨reloc, hreloc, rfl⟩ := List.mem_map.mp hname
    apply List.mem_append_right
    rw [ObjectParts.dataRelocs] at hreloc
    cases hsec : (collectObjectParts os m).sections kind with
    | none =>
      rw [hsec] at hreloc
      cases hreloc
    | some sec =>
      rw [hsec] at hreloc
      obtain ⟨rfl, -⟩ := sections_eq_some.mp hsec
      exact List.mem_flatMap.mpr ⟨kind, kind.mem_all, List.mem_map_of_mem hreloc⟩

/-! ## The object of a module -/

/-- The collected parts are what the writer expects, if they fit the format. -/
theorem writable_collectObjectParts (h : (collectObjectParts os m).Fits) :
    (collectObjectParts os m).Writable where
  toFits := h
  aligned := aligned_collectObjectParts os m
  registered := registered_collectObjectParts os m
  tbss_zero := by
    rw [ObjectParts.dataBytes]
    cases hsec : (collectObjectParts os m).sections .tbss with
    | none => exact fun b hb => absurd hb List.not_mem_nil
    | some sec => exact (sections_tbss hsec).2
  tbss_relocs := by
    rw [ObjectParts.dataRelocs]
    cases hsec : (collectObjectParts os m).sections .tbss with
    | none => rfl
    | some sec => exact (sections_tbss hsec).1

/-- The object file of a module is read back as the module's parts. -/
theorem readObject_collectObjectParts (h : (collectObjectParts os m).Fits) :
    (writeElfObject (collectObjectParts os m)).bind readObject
      = some (collectObjectParts os m).view := by
  have hwritable := writable_collectObjectParts h
  rw [writeElfObject, if_pos hwritable.registered, Option.bind_some]
  exact ObjectParts.readObject_elfImage hwritable

set_option maxRecDepth 8000 in
theorem fits_vtableModule : (collectObjectParts .linux vtableModule).Fits where
  nul_free := by with_unfolding_all decide
  symbols_fit := by with_unfolding_all decide
  fixups_fit := by with_unfolding_all decide
  relocs_fit := by
    intro kind
    cases kind <;> with_unfolding_all decide
  aligns_fit := by
    intro kind
    cases kind <;> with_unfolding_all decide
  strtab_fits := by with_unfolding_all decide
  file_fits := by with_unfolding_all decide
  tbss_fits := by with_unfolding_all decide

theorem readObject_vtableModule :
    (writeElfObject (collectObjectParts .linux vtableModule)).bind readObject
      = some (collectObjectParts .linux vtableModule).view :=
  readObject_collectObjectParts fits_vtableModule

end Crabbit.Aarch64
