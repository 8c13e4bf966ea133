/-
  Crabbit.Aarch64.ObjectResolve

  Object assembly: the relocations of the collected parts reach the
  definitions they name exactly when no reference of the module is to a
  definition without a symbol of its own.
-/

import Crabbit.Aarch64.ObjectSymbols
import Mathlib.Data.List.Nodup

namespace Crabbit.Aarch64

open Crabbit.Lib

/-! ## Names and items -/

section Items

variable {m : ObjectModule}

/-- Two items of one name are one item. -/
theorem ObjectModule.item_unique {a b : ModuleItem} (ha : a ∈ m.items) (hb : b ∈ m.items)
    (h : a.name = b.name) : a = b :=
  List.inj_on_of_nodup_map m.nodup ha hb h

theorem mem_data?_iff {kind : SectionKind} {item : ModuleItem} {d : String × DataAttr} :
    item.data? kind = some d ↔ ∃ g, item = .global g ∧ g.init = .data d.2 ∧ g.name = d.1 ∧
      d.2.sectionKind g.threadLocal = kind := by
  obtain ⟨name, init⟩ := d
  constructor
  · intro h
    cases item with
    | func name linkage encoded => cases h
    | global g =>
      rw [ModuleItem.data?] at h
      split at h
      · next init' hinit =>
        split at h
        · next hkind =>
          cases h
          exact ⟨g, rfl, hinit, rfl, hkind⟩
        · cases h
      · cases h
  · rintro ⟨g, rfl, hinit, hname, hkind⟩
    simp only [ModuleItem.data?, hinit, if_pos hkind, hname]

/-- A global with data in the list of its section. -/
theorem dataOf_split {before after : List ModuleItem} {g : Global} {init : DataAttr}
    (h : m.items = before ++ .global g :: after) (hinit : g.init = .data init) :
    dataOf (init.sectionKind g.threadLocal) m.items =
      dataOf (init.sectionKind g.threadLocal) before ++
        (g.name, init) :: dataOf (init.sectionKind g.threadLocal) after := by
  have hdata : (ModuleItem.global g).data? (init.sectionKind g.threadLocal) =
      some (g.name, init) := mem_data?_iff.mpr ⟨g, rfl, hinit, rfl, rfl⟩
  rw [h, dataOf_append, dataOf_cons, hdata]
  rfl

/-- An initializer in the list of a section with what is before it comes from
    a global with what is before it. -/
theorem exists_global_of_dataOf {kind : SectionKind} {before after : List (String × DataAttr)}
    {d : String × DataAttr} (h : dataOf kind m.items = before ++ d :: after) :
    ∃ before' g after', m.items = before' ++ .global g :: after' ∧ g.init = .data d.2 ∧
      g.name = d.1 ∧ d.2.sectionKind g.threadLocal = kind ∧ dataOf kind before' = before := by
  obtain ⟨before', item, after', hitems, hitem, hbefore, -⟩ := exists_split_of_filterMap h
  obtain ⟨g, rfl, hinit, hname, hkind⟩ := mem_data?_iff.mp hitem
  exact ⟨before', g, after', hitems, hinit, hname, hkind, hbefore⟩

end Items

/-! ## Resolution -/

section Resolve

variable {os : TargetOs} {m : ObjectModule}

theorem mem_relocationTargets {target : String} :
    target ∈ relocationTargets os m.fixups (collectItems os m.items).sections ↔
      ∃ name, target = os.symbolName name ∧ m.References name := by
  rw [relocationTargets, List.mem_append, List.mem_map, List.mem_flatMap]
  constructor
  · rintro (⟨fixup, hfixup, rfl⟩ | ⟨kind, -, htarget⟩)
    · exact ⟨fixup.symbol, rfl, Or.inl ⟨fixup, hfixup, rfl⟩⟩
    · obtain ⟨r, hr, rfl⟩ := List.mem_map.mp htarget
      rw [collectItems_sections] at hr
      rcases mem_relocs_appendAll.mp hr with hr | ⟨before, d, after, reloc, hdata, hreloc, rfl⟩
      · cases hr
      · obtain ⟨before', g, after', hitems, hinit, -, -, -⟩ := exists_global_of_dataOf hdata
        refine ⟨reloc.symbol, rfl, Or.inr ⟨g, d.2, reloc, ?_, hinit, hreloc, rfl⟩⟩
        rw [hitems]
        exact List.mem_append_right _ List.mem_cons_self
  · rintro ⟨name, rfl, ⟨fixup, hfixup, rfl⟩ | ⟨g, init, reloc, hg, hinit, hreloc, rfl⟩⟩
    · exact Or.inl ⟨fixup, hfixup, rfl⟩
    · obtain ⟨before, after, hitems⟩ := List.append_of_mem hg
      refine Or.inr ⟨init.sectionKind g.threadLocal, SectionKind.mem_all _, ?_⟩
      rw [collectItems_sections]
      refine List.mem_map.mpr ⟨_, mem_relocs_appendAll.mpr (Or.inr ⟨_, _, _, reloc,
        dataOf_split hitems hinit, hreloc, rfl⟩), rfl⟩

/-- A data global is a symbol of its section. -/
theorem data_symbol (os : TargetOs) {before after : List ModuleItem} {g : Global} {init : DataAttr}
    (h : m.items = before ++ .global g :: after) (hinit : g.init = .data init) :
    (⟨os.symbolName g.name,
      nextMultipleOf (sectionEnd 0 (dataOf (init.sectionKind g.threadLocal) before))
        init.alignment, init.bytes.length⟩ : DataSymbol) ∈
      ((collectItems os m.items).sections (init.sectionKind g.threadLocal)).symbols := by
  rw [collectItems_sections]
  exact mem_symbols_appendAll.mpr (Or.inr ⟨_, _, _, dataOf_split h hinit, rfl⟩)

/-- A section defines the symbols of its globals only. -/
theorem exists_of_defines {kind : SectionKind} {name : String}
    (h : ((collectItems os m.items).sections kind).defines (os.symbolName name) = true) :
    ∃ g init, .global g ∈ m.items ∧ g.name = name ∧ g.init = .data init := by
  obtain ⟨s, hs, hname⟩ := List.any_eq_true.mp h
  rw [collectItems_sections] at hs
  rcases mem_symbols_appendAll.mp hs with hs | ⟨before, d, after, hdata, rfl⟩
  · cases hs
  · obtain ⟨before', g, after', hitems, hinit, hg, -, -⟩ := exists_global_of_dataOf hdata
    refine ⟨g, d.2, ?_, ?_, hinit⟩
    · rw [hitems]
      exact List.mem_append_right _ List.mem_cons_self
    · rw [hg]
      exact symbolName_inj.mp (beq_iff_eq.mp hname)

/-- A text symbol of the walk is that of an exported function. -/
theorem exists_of_mem_symbols {s : Symbol} (h : s ∈ (collectItems os m.items).symbols) :
    ∃ before name linkage encoded after, m.items = before ++ .func name linkage encoded :: after ∧
      (linkage = .external ∨ linkage = .weak) ∧
      s = ⟨os.symbolName name, textSize (funcsOf before), true, true⟩ := by
  rcases mem_foldl_push_symbols.mp h with h | ⟨before, name, linkage, encoded, after, hitems,
    hvis, rfl⟩
  · cases h
  · have hzero : (({} : Collected).text.length + textSize (funcsOf before)) =
        textSize (funcsOf before) := Nat.zero_add _
    exact ⟨before, name, linkage, encoded, after, hitems, hvis, by rw [hzero]⟩

theorem find?_collected_of_func (os : TargetOs) {name : String} {linkage : LinkageAttr}
    {encoded : List UInt8} (h : .func name linkage encoded ∈ m.items) (hvis : linkage = .external ∨ linkage = .weak) :
    ∃ s, (collectItems os m.items).symbols.find? (·.name == os.symbolName name) = some s ∧
      s.defined = true ∧ m.DefinesAt name .text s.offset := by
  obtain ⟨before, after, hitems⟩ := List.append_of_mem h
  have hmem : (⟨os.symbolName name, 0 + textSize (funcsOf before), true, true⟩ : Symbol) ∈
      (collectItems os m.items).symbols :=
    mem_foldl_push_symbols.mpr (Or.inr ⟨before, name, linkage, encoded, after, hitems, hvis, rfl⟩)
  have hsome : ((collectItems os m.items).symbols.find?
      (·.name == os.symbolName name)).isSome :=
    List.find?_isSome.mpr ⟨_, hmem, beq_iff_eq.mpr rfl⟩
  obtain ⟨s, hs⟩ := Option.isSome_iff_exists.mp hsome
  refine ⟨s, hs, ?_⟩
  obtain ⟨before', name', linkage', encoded', after', hitems', -, rfl⟩ :=
    exists_of_mem_symbols (List.mem_of_find?_eq_some hs)
  have hname := List.find?_some hs
  obtain rfl := symbolName_inj.mp (beq_iff_eq.mp hname)
  exact ⟨rfl, .func hitems'⟩

/-- A name that no exported function has is no text symbol of the walk. -/
theorem find?_collected_of_not_func {name : String}
    (h : ¬ ∃ linkage encoded, .func name linkage encoded ∈ m.items ∧
      (linkage = .external ∨ linkage = .weak)) :
    (collectItems os m.items).symbols.find? (·.name == os.symbolName name) = none := by
  rw [List.find?_eq_none]
  intro s hs hname
  obtain ⟨before, name', linkage, encoded, after, hitems, hvis, rfl⟩ := exists_of_mem_symbols hs
  obtain rfl := symbolName_inj.mp (beq_iff_eq.mp hname)
  refine h ⟨linkage, encoded, ?_, hvis⟩
  rw [hitems]
  exact List.mem_append_right _ List.mem_cons_self

/-- The symbols of the parts: those of the walk, and undefined ones for the
    targets without a symbol. -/
theorem exists_extra (os : TargetOs) (m : ObjectModule) :
    ∃ extra, (collectObjectParts os m).symbols = (collectItems os m.items).symbols ++ extra ∧
      (∀ s ∈ extra, s.defined = false ∧
        s.name ∈ relocationTargets os m.fixups (collectItems os m.items).sections ∧
        (∀ t ∈ (collectItems os m.items).symbols, t.name ≠ s.name) ∧
        ∀ kind, ((collectItems os m.items).sections kind).defines s.name = false) ∧
      ∀ target ∈ relocationTargets os m.fixups (collectItems os m.items).sections,
        (∃ s ∈ (collectItems os m.items).symbols ++ extra, s.name = target) ∨
          ∃ kind, ((collectItems os m.items).sections kind).defines target = true :=
  foldl_ensureSymbol _ _

/-- A section of the parts has symbols, and is the one that was collected. -/
theorem sections_eq_some {kind : SectionKind} {sec : DataSection} :
    (collectObjectParts os m).sections kind = some sec ↔
      (collectItems os m.items).sections kind = sec ∧ sec.symbols ≠ [] := by
  show (if ((collectItems os m.items).sections kind).symbols.isEmpty then none
    else some ((collectItems os m.items).sections kind)) = some sec ↔ _
  split
  · next hempty =>
    constructor
    · intro h
      cases h
    · rintro ⟨rfl, hne⟩
      exact absurd (List.isEmpty_iff.mp hempty) hne
  · next hne =>
    rw [Option.some.injEq]
    constructor
    · rintro rfl
      exact ⟨rfl, fun h => hne (List.isEmpty_iff.mpr h)⟩
    · exact And.left

/-- What a data section says about a name is where the name is defined. -/
theorem dataEntry_sound {name : String} {kind : SectionKind} {entry : SymbolEntry}
    (h : (collectObjectParts os m).dataEntry (os.symbolName name) kind = some entry) :
    ∃ offset, entry = .defined (.data kind) offset ∧ m.DefinesAt name (.data kind) offset := by
  obtain ⟨sec, hsec, h⟩ := Option.bind_eq_some_iff.mp h
  obtain ⟨s, hs, h⟩ := Option.bind_eq_some_iff.mp h
  cases h
  obtain ⟨rfl, -⟩ := sections_eq_some.mp hsec
  refine ⟨s.offset, rfl, ?_⟩
  have hfound := List.find?_some hs
  have hname := beq_iff_eq.mp hfound
  have hmem := List.mem_of_find?_eq_some hs
  rw [collectItems_sections] at hmem
  rcases mem_symbols_appendAll.mp hmem with hmem | ⟨before, d, after, hdata, rfl⟩
  · cases hmem
  · obtain ⟨before', g, after', hitems, hinit, hg, rfl, rfl⟩ := exists_global_of_dataOf hdata
    have hd : d.1 = name := symbolName_inj.mp hname
    rw [← hg] at hd
    rw [← hd]
    exact .global hitems hinit

/-- The section of a data global has an entry for it. -/
theorem isSome_dataEntry {before after : List ModuleItem} {g : Global} {init : DataAttr}
    (h : m.items = before ++ .global g :: after) (hinit : g.init = .data init) :
    ((collectObjectParts os m).dataEntry (os.symbolName g.name)
      (init.sectionKind g.threadLocal)).isSome := by
  have hsymbol := data_symbol os h hinit
  have hsec : (collectObjectParts os m).sections (init.sectionKind g.threadLocal) =
      some ((collectItems os m.items).sections (init.sectionKind g.threadLocal)) :=
    sections_eq_some.mpr ⟨rfl, List.ne_nil_of_mem hsymbol⟩
  have hfind : (((collectItems os m.items).sections
      (init.sectionKind g.threadLocal)).symbols.find?
        fun symbol => symbol.name == os.symbolName g.name).isSome :=
    List.find?_isSome.mpr ⟨_, hsymbol, beq_iff_eq.mpr rfl⟩
  obtain ⟨s, hs⟩ := Option.isSome_iff_exists.mp hfind
  simp only [ObjectParts.dataEntry, hsec, Option.bind_eq_bind, Option.bind_some, hs,
    Option.pure_def, Option.isSome_some]

/-- A reference to a definition with a symbol reaches it. -/
theorem entry_of_visible {name : String} (h : m.Visible name) :
    ∃ place offset, m.DefinesAt name place offset ∧
      (collectObjectParts os m).entry (os.symbolName name) = some (.defined place offset) := by
  obtain ⟨extra, hsymbols, hnew, -⟩ := exists_extra os m
  rcases h with ⟨linkage, encoded, hfunc, hvis⟩ | ⟨g, init, hg, rfl, hinit⟩
  · obtain ⟨s, hs, hdef, hat⟩ := find?_collected_of_func os hfunc hvis
    refine ⟨.text, s.offset, hat, ?_⟩
    rw [ObjectParts.entry, hsymbols, List.find?_append, hs]
    show some _ = _
    rw [if_pos hdef]
  · obtain ⟨before, after, hitems⟩ := List.append_of_mem hg
    have hnone : (collectItems os m.items).symbols.find? (·.name == os.symbolName g.name) =
        none := by
      apply find?_collected_of_not_func
      rintro ⟨linkage, encoded, hfunc, -⟩
      cases ObjectModule.item_unique hfunc hg rfl
    have hdefines : ((collectItems os m.items).sections
        (init.sectionKind g.threadLocal)).defines (os.symbolName g.name) = true :=
      List.any_eq_true.mpr ⟨_, data_symbol os hitems hinit, beq_iff_eq.mpr rfl⟩
    have hextraNone : extra.find? (·.name == os.symbolName g.name) = none := by
      rw [List.find?_eq_none]
      intro s hs hname
      obtain ⟨-, -, -, hsec⟩ := hnew s hs
      have hfalse := hsec (init.sectionKind g.threadLocal)
      rw [beq_iff_eq.mp hname, hdefines] at hfalse
      cases hfalse
    -- the first section that has the name holds a definition of it
    have hsome : (SectionKind.all.findSome?
        ((collectObjectParts os m).dataEntry (os.symbolName g.name))).isSome :=
      List.findSome?_isSome_iff.mpr ⟨_, SectionKind.mem_all _, isSome_dataEntry hitems hinit⟩
    obtain ⟨entry, hentry⟩ := Option.isSome_iff_exists.mp hsome
    obtain ⟨kind, -, hkind⟩ := List.exists_of_findSome?_eq_some hentry
    obtain ⟨offset, rfl, hat⟩ := dataEntry_sound hkind
    refine ⟨.data kind, offset, hat, ?_⟩
    rw [ObjectParts.entry, hsymbols, List.find?_append, hnone, Option.none_or, hextraNone]
    exact hentry

/-- A reference to a definition without a symbol becomes undefined. -/
theorem entry_of_not_visible {name : String} (href : m.References name) (h : ¬ m.Visible name) :
    (collectObjectParts os m).entry (os.symbolName name) = some .undefined ∧
      ∃ s ∈ (collectObjectParts os m).symbols, s.defined = false ∧
        s.name = os.symbolName name := by
  obtain ⟨extra, hsymbols, hnew, hall⟩ := exists_extra os m
  have hnone : (collectItems os m.items).symbols.find? (·.name == os.symbolName name) = none :=
    find?_collected_of_not_func fun hfunc => h (Or.inl hfunc)
  obtain ⟨s, hs, hname⟩ : ∃ s ∈ extra, s.name = os.symbolName name := by
    rcases hall _ (mem_relocationTargets.mpr ⟨name, rfl, href⟩) with ⟨s, hs, hname⟩ | ⟨kind, hkind⟩
    · rcases List.mem_append.mp hs with hs | hs
      · exact absurd (beq_iff_eq.mpr hname) (List.find?_eq_none.mp hnone s hs)
      · exact ⟨s, hs, hname⟩
    · obtain ⟨g, init, hg, hgname, hinit⟩ := exists_of_defines hkind
      exact absurd (Or.inr ⟨g, init, hg, hgname, hinit⟩) h
  obtain ⟨hdef, -⟩ := hnew s hs
  refine ⟨?_, s, hsymbols ▸ List.mem_append_right _ hs, hdef, hname⟩
  have hsome : (extra.find? (·.name == os.symbolName name)).isSome :=
    List.find?_isSome.mpr ⟨s, hs, beq_iff_eq.mpr hname⟩
  obtain ⟨t, ht⟩ := Option.isSome_iff_exists.mp hsome
  obtain ⟨htdef, -⟩ := hnew t (List.mem_of_find?_eq_some ht)
  rw [ObjectParts.entry, hsymbols, List.find?_append, hnone, Option.none_or, ht]
  show some _ = _
  rw [htdef]
  rfl

end Resolve

/-! ## The encoder's offsets -/

/-- The module carries what the encode pass produced for `funcs`. -/
structure ObjectModule.EncodedFrom (m : ObjectModule) (funcs : List PlacedFunc)
    (encoded : EncodedModule) : Prop where
  names : (funcsOf m.items).map (fun func => func.1) = funcs.map PlacedFunc.name
  bytes : (funcsOf m.items).map (fun func => func.2.2) = encoded.functions
  literals : m.moduleLiterals = encoded.moduleLiterals

/-- Every function takes the bytes its size says. -/
theorem encodeFuncs_lengths {layout : Layout} {funcs : List PlacedFunc} :
    ∀ {start : Nat} {es : List BinaryEncoding}, encodeFuncs layout start funcs = .ok es →
      es.map (fun e => e.bytes.length) = funcs.map PlacedFunc.codeSize := by
  induction funcs with
  | nil =>
    intro start es h
    cases h
    rfl
  | cons func rest ih =>
    intro start es h
    obtain ⟨first, hfirst, h⟩ := bind_eq_ok.mp h
    obtain ⟨others, hothers, h⟩ := bind_eq_ok.mp h
    cases h
    have hfirstLen : first.bytes.length = func.codeSize := encodeBlocks_length hfirst
    rw [List.map_cons, List.map_cons, hfirstLen, ih hothers]

/-- A function of the module is in the object where the encoder placed it. -/
theorem lookup_eq_textSize {m : ObjectModule} {funcs : List PlacedFunc} {encoded : EncodedModule}
    (h : encodeModule funcs = .ok encoded) (hm : m.EncodedFrom funcs encoded)
    {before after : List ModuleItem} {name : String} {linkage : LinkageAttr} {bytes : List UInt8}
    (hitems : m.items = before ++ .func name linkage bytes :: after) :
    (layoutFuncs funcs).offsets.lookup name = some (textSize (funcsOf before)) := by
  obtain ⟨es, hes, h⟩ := bind_eq_ok.mp h
  cases h
  have hfuncs : funcsOf m.items = funcsOf before ++ (name, linkage, bytes) :: funcsOf after := by
    rw [hitems, funcsOf_append, funcsOf_cons]
    rfl
  have hnames := hm.names
  rw [hfuncs, List.map_append, List.map_cons, eq_comm, List.map_eq_append_iff] at hnames
  obtain ⟨fb, ftail, rfl, hfb, htail⟩ := hnames
  obtain ⟨f, fa, rfl, rfl, hfa⟩ := List.map_eq_cons_iff.mp htail
  have hlen : fb.length = (funcsOf before).length := by
    have := congrArg List.length hfb
    simpa only [List.length_map] using this
  have hnotin : f.name ∉ fa.map PlacedFunc.name := by
    intro hmem
    rw [hfa] at hmem
    obtain ⟨func, hfunc, hname⟩ := List.mem_map.mp hmem
    obtain ⟨item, hitem, hitem'⟩ := List.mem_filterMap.mp hfunc
    have hnodup := m.nodup
    rw [hitems, List.map_append, List.map_cons] at hnodup
    have hnot := (List.nodup_cons.mp (List.nodup_append.mp hnodup).2.1).1
    apply hnot
    cases item with
    | func name' linkage' bytes' =>
      cases hitem'
      exact List.mem_map.mpr ⟨_, hitem, hname⟩
    | global g => cases hitem'
  have hsizes : (funcsOf before).map (fun func => func.2.2.length) = fb.map PlacedFunc.codeSize := by
    have hbytes := congrArg (List.map List.length) hm.bytes
    rw [hfuncs, List.map_map, List.map_map] at hbytes
    have hall := encodeFuncs_lengths hes
    have heq : ((funcsOf before) ++ (f.name, linkage, bytes) :: funcsOf after).map
        (fun func => func.2.2.length) = (fb ++ f :: fa).map PlacedFunc.codeSize := by
      rw [← hall]
      exact hbytes
    rw [List.map_append, List.map_append] at heq
    exact (List.append_inj heq (by rw [List.length_map, List.length_map, hlen])).1
  rw [layoutFuncs_lookup hnotin, textSize, hsizes]
  rfl

/-! ## Object assembly -/

/-- What the parts promise about the symbols of the module. -/
structure Resolved (os : TargetOs) (m : ObjectModule) (parts : ObjectParts) : Prop where
  /-- A reference to a definition of the module reaches it. -/
  references : ∀ name, m.References name → m.Defines name → ∃ place offset,
    m.DefinesAt name place offset ∧
    parts.entry (os.symbolName name) = some (.defined place offset)
  /-- Only names the module does not define are undefined. -/
  undefined : ∀ s ∈ parts.symbols, s.defined = false → ∃ name, s.name = os.symbolName name ∧
    ¬ m.Defines name
  /-- The fixups are those of the code. -/
  fixups : parts.fixups = m.fixups.map fun fixup =>
    { fixup with symbol := os.symbolName fixup.symbol }
  /-- A text symbol is where its function's bytes are. -/
  text : ∀ s ∈ parts.symbols, s.defined = true → ∃ before name linkage encoded after,
    m.items = before ++ .func name linkage encoded :: after ∧ s.name = os.symbolName name ∧
    sliceAt parts.text s.offset encoded.length = some encoded ∧
    ∀ funcs image, encodeModule funcs = .ok image → m.EncodedFrom funcs image →
      (layoutFuncs funcs).offsets.lookup name = some s.offset
  /-- A data global is at a multiple of its alignment, with its bytes and its
      relocations. -/
  data : ∀ before g init after, m.items = before ++ .global g :: after → g.init = .data init →
    ∃ sec offset, parts.sections (init.sectionKind g.threadLocal) = some sec ∧
      m.DefinesAt g.name (.data (init.sectionKind g.threadLocal)) offset ∧
      ⟨os.symbolName g.name, offset, init.bytes.length⟩ ∈ sec.symbols ∧
      sliceAt sec.bytes offset init.bytes.length = some init.bytes ∧
      init.alignment ∣ offset ∧ init.alignment ∣ sec.align ∧
      ∀ reloc ∈ init.relocs,
        ⟨offset + reloc.offset, os.symbolName reloc.symbol, reloc.addend⟩ ∈ sec.relocs
  /-- The symbols of a data section do not overlap. -/
  disjoint : ∀ kind sec, parts.sections kind = some sec →
    sec.symbols.Pairwise fun s t => s.offset + s.size ≤ t.offset

section Assembly

variable {os : TargetOs} {m : ObjectModule}

theorem data_resolved {before after : List ModuleItem} {g : Global} {init : DataAttr}
    (h : m.items = before ++ .global g :: after) (hinit : g.init = .data init) :
    ∃ sec offset, (collectObjectParts os m).sections (init.sectionKind g.threadLocal) = some sec ∧
      m.DefinesAt g.name (.data (init.sectionKind g.threadLocal)) offset ∧
      ⟨os.symbolName g.name, offset, init.bytes.length⟩ ∈ sec.symbols ∧
      sliceAt sec.bytes offset init.bytes.length = some init.bytes ∧
      init.alignment ∣ offset ∧ init.alignment ∣ sec.align ∧
      ∀ reloc ∈ init.relocs,
        ⟨offset + reloc.offset, os.symbolName reloc.symbol, reloc.addend⟩ ∈ sec.relocs := by
  have hsymbol := data_symbol os h hinit
  have hdata := dataOf_split h hinit
  refine ⟨_, _, sections_eq_some.mpr ⟨rfl, List.ne_nil_of_mem hsymbol⟩, .global h hinit, hsymbol,
    ?_, dvd_nextMultipleOf _ _, ?_, fun reloc hreloc => ?_⟩
  · rw [collectItems_sections, hdata]
    exact sliceAt_appendAll {}
  · rw [collectItems_sections, hdata]
    exact (align_appendAll _ {} (Or.inl rfl)).2 (g.name, init)
      (List.mem_append_right _ List.mem_cons_self)
  · rw [collectItems_sections]
    exact mem_relocs_appendAll.mpr (Or.inr ⟨_, _, _, reloc, hdata, hreloc, rfl⟩)

theorem text_resolved {s : Symbol} (hs : s ∈ (collectObjectParts os m).symbols)
    (hdef : s.defined = true) :
    ∃ before name linkage encoded after,
      m.items = before ++ .func name linkage encoded :: after ∧ s.name = os.symbolName name ∧
      sliceAt (collectObjectParts os m).text s.offset encoded.length = some encoded ∧
      ∀ funcs image, encodeModule funcs = .ok image → m.EncodedFrom funcs image →
        (layoutFuncs funcs).offsets.lookup name = some s.offset := by
  obtain ⟨extra, hsymbols, hnew, -⟩ := exists_extra os m
  rw [hsymbols] at hs
  rcases List.mem_append.mp hs with hs | hs
  · obtain ⟨before, name, linkage, encoded, after, hitems, -, rfl⟩ := exists_of_mem_symbols hs
    refine ⟨before, name, linkage, encoded, after, hitems, rfl, ?_, fun funcs image h hm =>
      lookup_eq_textSize h hm hitems⟩
    apply sliceAt_append_right
    rw [hitems]
    exact sliceAt_text
  · rw [(hnew s hs).1] at hdef
    cases hdef

theorem exists_of_undefined {s : Symbol} (hs : s ∈ (collectObjectParts os m).symbols)
    (hdef : s.defined = false) :
    ∃ name, s.name = os.symbolName name ∧ m.References name ∧ ¬ m.Visible name := by
  obtain ⟨extra, hsymbols, hnew, -⟩ := exists_extra os m
  rw [hsymbols] at hs
  rcases List.mem_append.mp hs with hs | hs
  · obtain ⟨before, name, linkage, encoded, after, -, -, rfl⟩ := exists_of_mem_symbols hs
    cases hdef
  · obtain ⟨-, htarget, hfresh, hsec⟩ := hnew s hs
    obtain ⟨name, hname, href⟩ := mem_relocationTargets.mp htarget
    refine ⟨name, hname, href, ?_⟩
    rintro (⟨linkage, encoded, hfunc, hvis⟩ | ⟨g, init, hg, rfl, hinit⟩)
    · obtain ⟨t, ht, -, -⟩ := find?_collected_of_func os hfunc hvis
      have hfound := List.find?_some ht
      apply hfresh t (List.mem_of_find?_eq_some ht)
      rw [hname]
      exact beq_iff_eq.mp hfound
    · obtain ⟨before, after, hitems⟩ := List.append_of_mem hg
      have hdefines : ((collectItems os m.items).sections
          (init.sectionKind g.threadLocal)).defines (os.symbolName g.name) = true :=
        List.any_eq_true.mpr ⟨_, data_symbol os hitems hinit, beq_iff_eq.mpr rfl⟩
      have hfalse := hsec (init.sectionKind g.threadLocal)
      rw [hname, hdefines] at hfalse
      cases hfalse

/-- A reference to a definition that got no symbol is not resolved. -/
theorem not_resolved_of_hidden {name : String} (href : m.References name) (hdef : m.Defines name)
    (hvis : ¬ m.Visible name) : ¬ Resolved os m (collectObjectParts os m) := by
  intro h
  obtain ⟨place, offset, -, hentry⟩ := h.references name href hdef
  rw [(entry_of_not_visible href hvis).1] at hentry
  cases hentry

/-- Object assembly resolves the module's references exactly when each
    reference to a definition of the module is to an exported function or a
    data global. -/
theorem collectObjectParts_resolved_iff (os : TargetOs) (m : ObjectModule) :
    Resolved os m (collectObjectParts os m) ↔
      ∀ name, m.References name → m.Defines name → m.Visible name := by
  constructor
  · intro h name href hdef
    by_contra hvis
    exact not_resolved_of_hidden href hdef hvis h
  · intro h
    constructor
    · exact fun name href hdef => entry_of_visible (h name href hdef)
    · intro s hs hdef
      obtain ⟨name, hname, href, hvis⟩ := exists_of_undefined hs hdef
      exact ⟨name, hname, fun hd => hvis (h name href hd)⟩
    · rfl
    · exact fun s hs hdef => text_resolved hs hdef
    · exact fun before g init after hitems hinit => data_resolved hitems hinit
    · intro kind sec hsec
      obtain ⟨rfl, -⟩ := sections_eq_some.mp hsec
      rw [collectItems_sections]
      exact pairwise_symbols_appendAll _ {} List.Pairwise.nil
        fun s hs => absurd hs List.not_mem_nil

end Assembly

/-- An internal function whose only reference is a word of a vtable. -/
def vtableModule : ObjectModule where
  items := [
    .func "method" .internal [0xc0, 0x03, 0x5f, 0xd6],
    .global ⟨"vtable", false, .data ⟨List.replicate 8 0, 8, false, [⟨0, "method", 0⟩],
      Or.inr ⟨3, rfl⟩⟩⟩]
  moduleLiterals := []
  fixups := []
  nodup := by decide

/-- The vtable's word refers to an undefined symbol, although the module
    defines the method. -/
theorem not_resolved_vtableModule :
    ¬ Resolved .linux vtableModule (collectObjectParts .linux vtableModule) := by
  have href : vtableModule.References "method" :=
    Or.inr ⟨_, _, ⟨0, "method", 0⟩, List.mem_cons_of_mem _ List.mem_cons_self, rfl,
      List.mem_cons_self, rfl⟩
  have hdef : vtableModule.Defines "method" := Or.inl ⟨_, _, List.mem_cons_self⟩
  apply not_resolved_of_hidden href hdef
  · rintro (⟨linkage, encoded, hfunc, hvis⟩ | ⟨g, init, hg, hname, -⟩)
    · rcases List.mem_cons.mp hfunc with h | h
      · cases h
        rcases hvis with h | h <;> cases h
      · rcases List.mem_cons.mp h with h | h
        · cases h
        · cases h
    · rcases List.mem_cons.mp hg with h | h
      · cases h
      · rcases List.mem_cons.mp h with h | h
        · cases h
          exact absurd hname (by decide)
        · cases h

end Crabbit.Aarch64
