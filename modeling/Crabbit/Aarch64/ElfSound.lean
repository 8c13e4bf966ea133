/-
  Crabbit.Aarch64.ElfSound

  What the ELF writer has written is read back: the sections, the symbols and
  the relocations of an object are those of the parts it was made from.
-/

import Crabbit.Aarch64.ElfLayout

namespace Crabbit.Aarch64

open Crabbit.Lib Crabbit.Lib.Elf64

namespace ObjectParts

/-! ## The object that the parts describe -/

def dataType : SectionKind → Nat
  | .tbss => typeNobits
  | _ => typeProgbits

def dataSectionView (parts : ObjectParts) (kind : SectionKind) : Option SectionView :=
  (parts.sections kind).map fun sec =>
    { name := utf8 (SectionId.data kind).name
      type := dataType kind
      flags := kind.flags
      align := max sec.align 1
      content := sec.bytes }

def textSymbolView (parts : ObjectParts) (symbol : Symbol) : SymbolView :=
  { name := utf8 symbol.name
    sectionName := if symbol.defined then some (utf8 ".text") else none
    value := if symbol.defined then symbol.offset else 0
    size := 0
    binding := if symbol.name ∈ parts.weakSymbols then bindWeak else bindGlobal
    type :=
      if symbol.defined then sttFunc
      else if symbol.name ∈ parts.tlsFixupTargets then sttTls
      else 0 }

def dataSymbolView (kind : SectionKind) (symbol : DataSymbol) : SymbolView :=
  { name := utf8 symbol.name
    sectionName := some (utf8 (SectionId.data kind).name)
    value := symbol.offset
    size := symbol.size
    binding := bindGlobal
    type := kind.symbolType }

def fixupView (fixup : BinaryFixup) : RelocView :=
  ⟨fixup.offset, utf8 fixup.symbol, fixup.kind.relocType, 0⟩

def relocView (reloc : DataReloc) : RelocView :=
  ⟨reloc.offset, utf8 reloc.symbol, relocAbs64, reloc.addend⟩

/-- The relocations of a data section, if it has any. -/
def dataRelocsView (parts : ObjectParts) (kind : SectionKind) :
    Option (List UInt8 × List RelocView) :=
  if parts.dataRelocs kind = [] then none
  else some (utf8 (SectionId.data kind).name, (parts.dataRelocs kind).map relocView)

/-- An object in the words of its parts: sections and symbols go by their
    names, and no index or file offset is mentioned. -/
def view (parts : ObjectParts) : ObjectView :=
  { machine := 183
    sections :=
      { name := utf8 ".text"
        type := typeProgbits
        flags := flagAlloc ||| flagExec
        align := 4
        content := parts.text } :: SectionKind.all.filterMap parts.dataSectionView
    symbols :=
      parts.symbols.map parts.textSymbolView ++
        SectionKind.all.flatMap fun kind => (parts.dataSymbols kind).map (dataSymbolView kind)
    firstGlobal := 1
    relocs :=
      (utf8 ".text", parts.fixups.map fixupView) ::
        SectionKind.inFile.filterMap parts.dataRelocsView }

/-- What the format can hold: names without a NUL, and numbers that fit their
    fields. -/
structure Fits (parts : ObjectParts) : Prop where
  nul_free : ∀ name ∈ parts.symbolNames, 0 ∉ utf8 name
  symbols_fit : ∀ symbol ∈ parts.elfSymbols, symbol.value < 2 ^ 64 ∧ symbol.size < 2 ^ 64
  fixups_fit : ∀ fixup ∈ parts.fixups, fixup.offset < 2 ^ 32
  relocs_fit : ∀ kind, ∀ reloc ∈ parts.dataRelocs kind,
    reloc.offset < 2 ^ 64 ∧ -2 ^ 63 ≤ reloc.addend ∧ reloc.addend < 2 ^ 63
  aligns_fit : ∀ kind, parts.dataAlign kind < 2 ^ 64
  strtab_fits : parts.strtab.length < 2 ^ 32
  file_fits : parts.shoff + parts.sectionHeaders.length * 64 < 2 ^ 64
  tbss_fits : parts.offset (.data .tbss) < 2 ^ 64 ∧ (parts.dataBytes .tbss).length < 2 ^ 64

/-- What the collected parts promise the writer besides: alignments that are
    powers of two, a symbol for every relocation, and an all-zero, pointer-free
    `.tbss`. -/
structure Writable (parts : ObjectParts) : Prop extends Fits parts where
  aligned : parts.Aligned
  registered : ∀ name ∈ parts.relocatedNames, name ∈ parts.symbolNames
  tbss_zero : ∀ b ∈ parts.dataBytes .tbss, b = 0
  tbss_relocs : parts.dataRelocs .tbss = []

variable {parts : ObjectParts}

/-! ## The rows of the section header table -/

/-- Rows that every object has. -/
theorem mem_sectionIds_of_present (parts : ObjectParts) (id : SectionId) (hid : id ∈ SectionId.all)
    (hpresent : parts.present id = true) : id ∈ parts.sectionIds :=
  List.mem_filter.mpr ⟨hid, hpresent⟩

theorem length_sectionIds_le (parts : ObjectParts) : parts.sectionIds.length ≤ 15 :=
  List.length_filter_le _ _

theorem sectionIndex_le (parts : ObjectParts) (id : SectionId) : parts.sectionIndex id ≤ 16 :=
  Nat.succ_le_succ (Nat.le_trans List.idxOf_le_length (length_sectionIds_le parts))

theorem sectionIndex_ne_zero (parts : ObjectParts) (id : SectionId) : parts.sectionIndex id ≠ 0 :=
  Nat.succ_ne_zero _

theorem length_sectionHeaders (parts : ObjectParts) :
    parts.sectionHeaders.length = parts.sectionIds.length + 1 := by
  rw [sectionHeaders, List.length_cons, List.length_map]

/-! ## Names of sections -/

theorem nul_free_name (id : SectionId) : 0 ∉ utf8 id.name := by
  cases id with
  | data kind => cases kind <;> decide
  | rela kind => cases kind <;> decide
  | _ => decide

theorem stringAt_shstrtab {id : SectionId} (hid : id ∈ parts.sectionIds) :
    stringAt parts.shstrtab (parts.nameOffset id) = some (utf8 id.name) := by
  have hlt := List.idxOf_lt_length_of_mem hid
  have hnames : ∀ name ∈ parts.sectionIds.map fun id => utf8 id.name, 0 ∉ name := by
    intro name hname
    obtain ⟨other, -, rfl⟩ := List.mem_map.mp hname
    exact nul_free_name other
  apply stringAt_stringTable hnames (i := parts.sectionIds.idxOf id) _ (getElem?_map_idxOf hid _)
  rw [nameOffset, List.getD_eq_getElem?_getD, List.getElem?_eq_getElem, Option.getD_some]
  rw [length_stringOffsets, List.length_map]
  exact hlt

set_option maxRecDepth 8000 in
/-- The names of all rows make up less than 256 bytes. -/
theorem length_shstrtab_lt (parts : ObjectParts) : parts.shstrtab.length < 256 := by
  have hle := length_stringTable_le
    ((List.filter_sublist (p := parts.present) (l := SectionId.all)).map fun id => utf8 id.name)
  have hall : (stringTable (SectionId.all.map fun id => utf8 id.name)).length < 256 := by
    with_unfolding_all decide
  exact Nat.lt_of_le_of_lt hle hall

theorem nameOffset_lt {id : SectionId} (hid : id ∈ parts.sectionIds) :
    parts.nameOffset id < 256 := by
  have hlt := List.idxOf_lt_length_of_mem hid
  have hmem : parts.nameOffset id ∈
      stringOffsets 1 (parts.sectionIds.map fun id => utf8 id.name) := by
    rw [nameOffset, List.getD_eq_getElem?_getD, List.getElem?_eq_getElem, Option.getD_some]
    · exact List.getElem_mem _
    · rw [length_stringOffsets, List.length_map]
      exact hlt
  exact Nat.lt_of_le_of_lt (stringOffsets_le_length _ hmem) (length_shstrtab_lt parts)

/-! ## Reading the headers -/

theorem fits_fileHeader (h : parts.Writable) : Elf64.fileHeader.Fits parts.fileHeader := by
  have hfile := h.file_fits
  have hcount := length_sectionIds_le parts
  have hindex := sectionIndex_le parts .shstrtab
  apply Elf64.fits_fileHeader <;> simp only [fileHeader, typeRel] <;> omega

theorem readFileHeader_elfImage (h : parts.Writable) :
    readFileHeader parts.elfImage = some parts.fileHeader := by
  have hdecode := Codec.decode_encode _ (fits_fileHeader h)
  rw [readFileHeader, sliceAt_ident h.aligned, sliceAt_fileHeader h.aligned]
  simp only [Option.bind_eq_bind, Option.bind_some, hdecode]
  rfl

theorem offset_lt (h : parts.Writable) (id : SectionId) (hid : id ∈ parts.sectionIds) :
    (parts.sectionHeader id).offset < 2 ^ 64 ∧ (parts.sectionHeader id).size < 2 ^ 64 := by
  have hfile := h.file_fits
  cases hin : id.inFile with
  | true =>
    have hbound := (bounds_chunk h.aligned (mem_fileOrder hid hin)).2
    have hrange := range_sectionHeader parts hin
    rw [SectionHeader.range, Prod.mk.injEq] at hrange
    rw [hrange.1, hrange.2]
    omega
  | false =>
    cases id with
    | data kind =>
      cases kind with
      | tbss => exact h.tbss_fits
      | _ => cases hin
    | _ => cases hin

theorem fits_sectionHeader (h : parts.Writable) {id : SectionId} (hid : id ∈ parts.sectionIds) :
    Elf64.sectionHeader.Fits (parts.sectionHeader id) := by
  have hname := nameOffset_lt hid
  have hrange := offset_lt h id hid
  have hsymtab := sectionIndex_le parts .symtab
  have hstrtab := sectionIndex_le parts .strtab
  have htext := sectionIndex_le parts .text
  have halign := h.aligns_fit
  have hexec : flagAlloc ||| flagExec < 2 ^ 64 := by decide
  cases id with
  | data kind =>
    have hkind := halign kind
    have hflags : kind.flags < 2 ^ 64 := by cases kind <;> decide
    cases kind <;> apply Elf64.fits_sectionHeader _ hrange <;>
      simp only [sectionHeader, header, typeProgbits, typeNobits] <;> omega
  | rela kind =>
    have hdata := sectionIndex_le parts (.data kind)
    apply Elf64.fits_sectionHeader _ hrange <;> simp only [sectionHeader, header, typeRela] <;> omega
  | _ =>
    apply Elf64.fits_sectionHeader _ hrange <;>
      simp only [sectionHeader, header, typeProgbits, typeRela, typeSymtab, typeStrtab] <;> omega

theorem readSectionHeaders_elfImage (h : parts.Writable) :
    readSectionHeaders parts.elfImage = some (parts.fileHeader, parts.sectionHeaders) := by
  have hfits : ∀ s ∈ parts.sectionHeaders, Elf64.sectionHeader.Fits s := by
    intro s hs
    rcases List.mem_cons.mp hs with rfl | hs
    · apply Elf64.fits_sectionHeader <;> simp only [nullHeader] <;> omega
    · obtain ⟨id, hid, rfl⟩ := List.mem_map.mp hs
      exact fits_sectionHeader h hid
  have htable := Codec.readTable_encodeTable _ hfits
  have hslice := sliceAt_table h.aligned
  rw [length_sectionHeaders] at htable hslice
  rw [readSectionHeaders, readFileHeader_elfImage h]
  simp only [Option.bind_eq_bind, Option.bind_some, fileHeader, hslice, htable, Option.pure_def]

/-! ## Reading the sections -/

/-- The bytes a row stands for, in the file or not. -/
def rowContent (parts : ObjectParts) : SectionId → List UInt8
  | .data kind => parts.dataBytes kind
  | id => parts.fileBytes id

def load (parts : ObjectParts) (id : SectionId) : LoadedSection :=
  ⟨utf8 id.name, parts.sectionHeader id, parts.rowContent id⟩

def loaded (parts : ObjectParts) : List LoadedSection :=
  ⟨[], nullHeader, []⟩ :: parts.sectionIds.map parts.load

theorem sectionContent_elfImage (h : parts.Writable) {id : SectionId}
    (hid : id ∈ parts.sectionIds) :
    sectionContent parts.elfImage (parts.sectionHeader id) = some (parts.rowContent id) := by
  cases hin : id.inFile with
  | true =>
    have hfile : (parts.sectionHeader id).InFile :=
      of_decide_eq_true ((inFile_sectionHeader parts id).trans hin)
    have hslice := sliceAt_fileBytes h.aligned (mem_fileOrder hid hin)
    have hrange := range_sectionHeader parts hin
    rw [SectionHeader.range, Prod.mk.injEq] at hrange
    rw [sectionContent, if_neg hfile.2, hrange.1, hrange.2, hslice]
    cases id with
    | data kind =>
      cases kind with
      | tbss => cases hin
      | _ => rfl
    | _ => rfl
  | false =>
    cases id with
    | data kind =>
      cases kind with
      | tbss =>
        -- No bytes in the file: the size alone says how many zeros there are.
        have hzero := (List.eq_replicate_iff.mpr ⟨rfl, h.tbss_zero⟩).symm
        exact congrArg some hzero
      | _ => cases hin
    | _ => cases hin

theorem loadSection_elfImage (h : parts.Writable) {id : SectionId} (hid : id ∈ parts.sectionIds) :
    loadSection parts.elfImage parts.shstrtab (parts.sectionHeader id) = some (parts.load id) := by
  have hname : (parts.sectionHeader id).name = parts.nameOffset id := by
    cases id with
    | data kind => cases kind <;> rfl
    | _ => rfl
  rw [loadSection, hname, stringAt_shstrtab hid, sectionContent_elfImage h hid]
  rfl

/-- Every section has its row at its number. -/
theorem getElem?_loaded {id : SectionId} (hid : id ∈ parts.sectionIds) :
    parts.loaded[parts.sectionIndex id]? = some (parts.load id) := by
  rw [loaded, sectionIndex, List.getElem?_cons_succ]
  exact getElem?_map_idxOf hid parts.load

theorem getElem?_sectionHeaders {id : SectionId} (hid : id ∈ parts.sectionIds) :
    parts.sectionHeaders[parts.sectionIndex id]? = some (parts.sectionHeader id) := by
  rw [sectionHeaders, sectionIndex, List.getElem?_cons_succ]
  exact getElem?_map_idxOf hid parts.sectionHeader

theorem readSections_elfImage (h : parts.Writable) :
    readSections parts.elfImage = some parts.loaded := by
  have hmem : SectionId.shstrtab ∈ parts.sectionIds := mem_sectionIds_of_present _ _ (by decide) rfl
  have hnull : loadSection parts.elfImage parts.shstrtab nullHeader
      = some ⟨[], nullHeader, []⟩ := by
    have hslice : sliceAt parts.elfImage 0 0 = some [] := by
      rw [sliceAt, if_pos (Nat.zero_le _), List.take_zero]
    have hname := stringAt_stringTable_zero (parts.sectionIds.map fun id => utf8 id.name)
    rw [loadSection, sectionContent, if_neg (by decide)]
    change (do
      let name ← stringAt parts.shstrtab 0
      let content ← sliceAt parts.elfImage 0 0
      return LoadedSection.mk name nullHeader content) = _
    rw [shstrtab, hname, hslice]
    rfl
  have hrows := mapM_map_eq_some (h := parts.load) fun id hid =>
    loadSection_elfImage h hid
  rw [readSections, readSectionHeaders_elfImage h]
  simp only [Option.bind_eq_bind, Option.bind_some, fileHeader, getElem?_sectionHeaders hmem,
    sectionContent_elfImage h hmem]
  change List.mapM (loadSection parts.elfImage parts.shstrtab) parts.sectionHeaders = _
  rw [sectionHeaders, List.mapM_cons, hnull, hrows]
  rfl

/-! ## Reading the symbols -/

/-- A row of the symbol table as the reader sees it. -/
def rowView (parts : ObjectParts) (symbol : ElfSymbol) : SymbolView :=
  { name := utf8 symbol.name
    sectionName :=
      if symbol.shndx = 0 then none else (parts.loaded[symbol.shndx]?).map LoadedSection.name
    value := symbol.value
    size := symbol.size
    binding := symbol.info / 2 ^ 4
    type := symbol.info % 2 ^ 4 }

theorem rowView_textSymbol (parts : ObjectParts) (symbol : Symbol) :
    parts.rowView (parts.textSymbol symbol) = parts.textSymbolView symbol := by
  have htype : (if symbol.defined then sttFunc
      else if symbol.name ∈ parts.tlsFixupTargets then sttTls else 0) < 2 ^ 4 := by
    split
    · decide
    · split <;> decide
  have htext := getElem?_loaded (mem_sectionIds_of_present parts .text (by decide) rfl)
  rw [rowView, textSymbolView, textSymbol]
  simp only [shiftLeft_or_div _ htype, shiftLeft_or_mod _ htype]
  cases symbol.defined with
  | false => rfl
  | true =>
    simp only [if_true, htext, if_neg (sectionIndex_ne_zero parts .text)]
    rfl

theorem symbolType_lt (kind : SectionKind) : kind.symbolType < 2 ^ 4 := by
  cases kind <;> decide

/-- A section with symbols is present. -/
theorem mem_sectionIds_of_dataSymbols {kind : SectionKind} {symbol : DataSymbol}
    (h : symbol ∈ parts.dataSymbols kind) : SectionId.data kind ∈ parts.sectionIds := by
  apply mem_sectionIds_of_present _ _
  · cases kind <;> decide
  · rw [dataSymbols] at h
    rw [present]
    cases hsec : parts.sections kind with
    | none => rw [hsec] at h; cases h
    | some sec => rfl

theorem rowView_dataSymbol {kind : SectionKind} {symbol : DataSymbol}
    (h : symbol ∈ parts.dataSymbols kind) :
    parts.rowView (parts.dataSymbol kind symbol) = dataSymbolView kind symbol := by
  have hdata := getElem?_loaded (mem_sectionIds_of_dataSymbols h)
  rw [rowView, dataSymbolView, dataSymbol]
  simp only [shiftLeft_or_div _ (symbolType_lt kind), shiftLeft_or_mod _ (symbolType_lt kind), hdata,
    if_neg (sectionIndex_ne_zero parts _)]
  rfl

theorem map_rowView (parts : ObjectParts) :
    parts.elfSymbols.map parts.rowView = parts.view.symbols := by
  rw [elfSymbols, view, List.map_append, List.map_map, List.map_flatMap]
  congr 1
  · exact List.map_congr_left fun symbol _ => rowView_textSymbol parts symbol
  · congr 1
    funext kind
    rw [List.map_map]
    exact List.map_congr_left fun symbol hsymbol => rowView_dataSymbol hsymbol

/-- What every row of the symbol table satisfies. -/
theorem elfSymbols_spec {symbol : ElfSymbol} (h : symbol ∈ parts.elfSymbols) :
    symbol.info < 2 ^ 8 ∧ symbol.shndx ≤ 16 ∧
      (symbol.shndx = 0 ∨ ∃ id ∈ parts.sectionIds, symbol.shndx = parts.sectionIndex id) := by
  rcases List.mem_append.mp h with h | h
  · obtain ⟨source, -, rfl⟩ := List.mem_map.mp h
    refine ⟨?_, ?_, ?_⟩
    · apply shiftLeft_or_lt (k := 4) (n := 4)
      · split
        · decide
        · split <;> decide
      · split <;> decide
    · change (if source.defined then parts.sectionIndex .text else 0) ≤ 16
      split
      · exact sectionIndex_le parts _
      · exact Nat.zero_le _
    · change (if source.defined then parts.sectionIndex .text else 0) = 0 ∨
        ∃ id ∈ parts.sectionIds, (if source.defined then parts.sectionIndex .text else 0) = _
      split
      · exact Or.inr ⟨.text, mem_sectionIds_of_present _ _ (by decide) rfl, rfl⟩
      · exact Or.inl rfl
  · obtain ⟨kind, -, h⟩ := List.mem_flatMap.mp h
    obtain ⟨source, hsource, rfl⟩ := List.mem_map.mp h
    exact ⟨shiftLeft_or_lt (k := 4) (n := 4) (symbolType_lt kind) (by decide),
      sectionIndex_le parts _,
      Or.inr ⟨.data kind, mem_sectionIds_of_dataSymbols hsource, rfl⟩⟩

theorem length_symNameOffsets (parts : ObjectParts) :
    parts.symNameOffsets.length = parts.elfSymbols.length := by
  rw [symNameOffsets, length_stringOffsets, List.length_map, symbolNames, List.length_map]

/-- Symbols are fewer than the bytes of their names. -/
theorem length_elfSymbols_lt (parts : ObjectParts) :
    parts.elfSymbols.length < parts.strtab.length := by
  have hlt := length_lt_length_stringTable (parts.symbolNames.map utf8)
  rw [List.length_map, symbolNames, List.length_map] at hlt
  exact hlt

theorem fits_symtab (h : parts.Writable) :
    ∀ entry ∈ parts.symtab, symEntry.Fits entry := by
  intro entry hentry
  rcases List.mem_cons.mp hentry with rfl | hentry
  · apply fits_symEntry <;> simp only [SymEntry.null] <;> omega
  · obtain ⟨i, hi⟩ := List.mem_iff_getElem?.mp hentry
    obtain ⟨symbol, off, hsymbol, hoff, rfl⟩ := List.getElem?_zipWith_eq_some.mp hi
    have hmem := List.mem_of_getElem? hsymbol
    obtain ⟨hinfo, hshndx, -⟩ := elfSymbols_spec hmem
    have hname := stringOffsets_le_length _ (List.mem_of_getElem? hoff)
    have hstrtab := h.strtab_fits
    have hvalue := h.symbols_fit symbol hmem
    rw [strtab] at hstrtab
    apply fits_symEntry _ hvalue
    simp only [ElfSymbol.entry]
    omega

theorem readSymbol_entry (h : parts.Writable) {symbol : ElfSymbol} {i off : Nat}
    (hsymbol : parts.elfSymbols[i]? = some symbol) (hoff : parts.symNameOffsets[i]? = some off) :
    readSymbol parts.loaded parts.strtab (symbol.entry off) = some (parts.rowView symbol) := by
  have hnames : ∀ name ∈ parts.symbolNames.map utf8, 0 ∉ name := by
    intro bytes hbytes
    obtain ⟨name, hname, rfl⟩ := List.mem_map.mp hbytes
    exact h.nul_free name hname
  have hbytes : (parts.symbolNames.map utf8)[i]? = some (utf8 symbol.name) := by
    rw [symbolNames, List.map_map, List.getElem?_map, hsymbol]
    rfl
  have hstring : stringAt parts.strtab (symbol.entry off).name = some (utf8 symbol.name) :=
    stringAt_stringTable hnames hoff hbytes
  obtain ⟨-, -, hshndx⟩ := elfSymbols_spec (List.mem_of_getElem? hsymbol)
  have hsection : sectionNameAt parts.loaded (symbol.entry off).shndx
      = some (parts.rowView symbol).sectionName := by
    change sectionNameAt parts.loaded symbol.shndx = _
    rw [sectionNameAt, rowView]
    rcases hshndx with hzero | ⟨id, hid, hindex⟩
    · rw [if_pos hzero, if_pos hzero]
    · have hne : symbol.shndx ≠ 0 := hindex ▸ sectionIndex_ne_zero parts id
      rw [if_neg hne, if_neg hne, hindex, getElem?_loaded hid]
      rfl
  rw [readSymbol, hstring, hsection]
  rfl

theorem readSymbols_load (h : parts.Writable) :
    readSymbols parts.loaded (parts.load .symtab) = some parts.view.symbols := by
  have hstrings := getElem?_loaded (mem_sectionIds_of_present parts .strtab (by decide) rfl)
  have htable := Codec.readTable_encodeTable_div symEntry (by decide) (fits_symtab h)
  have hrows := mapM_zipWith_eq_some (g := ElfSymbol.entry) (length_symNameOffsets parts)
    fun i symbol off hsymbol hoff => readSymbol_entry h hsymbol hoff
  rw [map_rowView] at hrows
  rw [readSymbols]
  change (do
    let strings ← parts.loaded[parts.sectionIndex .strtab]?
    let entries ← symEntry.readTable
      ((symEntry.encodeTable parts.symtab).length / symEntry.size)
      (symEntry.encodeTable parts.symtab)
    if typeSymtab = typeSymtab ∧ strings.header.type = typeStrtab ∧
        entries.head? = some SymEntry.null then
      entries.tail.mapM (readSymbol parts.loaded strings.content)
    else none) = _
  rw [hstrings, htable]
  exact hrows

/-! ## Reading the relocations -/

theorem getElem?_symbols {name : String} (hname : name ∈ parts.symbolNames) :
    ∃ symbol, parts.view.symbols[parts.symbolIndex name - 1]? = some symbol ∧
      symbol.name = utf8 name := by
  have hlt := List.idxOf_lt_length_of_mem hname
  have hname' := List.getElem_idxOf hlt
  rw [symbolNames, List.length_map] at hlt
  obtain ⟨row, hrow⟩ : ∃ row, parts.elfSymbols[parts.symbolNames.idxOf name]? = some row :=
    ⟨_, List.getElem?_eq_getElem hlt⟩
  refine ⟨parts.rowView row, ?_, ?_⟩
  · rw [← map_rowView, List.getElem?_map, symbolIndex, Nat.add_sub_cancel, hrow]
    rfl
  · have hget : parts.symbolNames[parts.symbolNames.idxOf name]? = some row.name := by
      rw [symbolNames, List.getElem?_map, ← symbolNames, hrow]
      rfl
    obtain ⟨hidx, hrowName⟩ := List.getElem?_eq_some_iff.mp hget
    rw [← hname', hrowName]
    rfl

theorem symbolIndex_lt (h : parts.Writable) {name : String} (hname : name ∈ parts.symbolNames) :
    parts.symbolIndex name < 2 ^ 32 := by
  have hlt := List.idxOf_lt_length_of_mem hname
  have hcount := length_elfSymbols_lt parts
  have hstrtab := h.strtab_fits
  rw [symbolNames, List.length_map, ← symbolNames] at hlt
  rw [symbolIndex]
  omega

theorem fits_relaEntry (h : parts.Writable) {offset type : Nat} {name : String} {addend : Int}
    (hoffset : offset < 2 ^ 64) (hname : name ∈ parts.symbolNames) (htype : type < 2 ^ 32) :
    Elf64.relaEntry.Fits (parts.relaEntry offset name type addend) :=
  Elf64.fits_relaEntry
    ⟨hoffset, shiftLeft_or_lt (k := 32) (n := 32) htype (symbolIndex_lt h hname), wrap_lt 64 addend⟩

theorem readReloc_relaEntry {offset type : Nat} {name : String} {addend : Int}
    (hname : name ∈ parts.symbolNames) (htype : type < 2 ^ 32)
    (haddend : -2 ^ 63 ≤ addend ∧ addend < 2 ^ 63) :
    readReloc parts.view.symbols (parts.relaEntry offset name type addend)
      = some ⟨offset, utf8 name, type, addend⟩ := by
  obtain ⟨symbol, hsymbol, hbytes⟩ := getElem?_symbols hname
  have hsigned := toSigned_wrap (w := 64) (by decide) haddend.1 haddend.2
  have hne : parts.symbolIndex name ≠ 0 := Nat.succ_ne_zero _
  rw [readReloc, relaEntry]
  simp only [shiftLeft_or_div _ htype, shiftLeft_or_mod _ htype, if_neg hne, hsymbol, hsigned, hbytes,
    Option.bind_eq_bind, Option.bind_some, Option.pure_def]

/-- A relocation section that is linked to the symbol table reads back entry by
    entry. -/
theorem readRelocs_load (h : parts.Writable) {id : SectionId} (target : SectionId) {ι : Type}
    {xs : List ι}    {entry : ι → RelaEntry} {v : ι → RelocView}
    (hlink : (parts.sectionHeader id).link = parts.sectionIndex .symtab)
    (hinfo : (parts.sectionHeader id).info = parts.sectionIndex target)
    (htarget : target ∈ parts.sectionIds)
    (hcontent : parts.rowContent id = Elf64.relaEntry.encodeTable (xs.map entry))
    (hfits : ∀ x ∈ xs, Elf64.relaEntry.Fits (entry x))
    (hread : ∀ x ∈ xs, readReloc parts.view.symbols (entry x) = some (v x)) :
    readRelocs parts.loaded (parts.load id) = some (utf8 target.name, xs.map v) := by
  have hsymtab := getElem?_loaded (mem_sectionIds_of_present parts .symtab (by decide) rfl)
  have hall : ∀ e ∈ xs.map entry, Elf64.relaEntry.Fits e := by
    intro e he
    obtain ⟨x, hx, rfl⟩ := List.mem_map.mp he
    exact hfits x hx
  have htable := Codec.readTable_encodeTable_div Elf64.relaEntry (by decide) hall
  have hsize : Elf64.relaEntry.size = 24 := rfl
  rw [hsize] at htable
  rw [readRelocs, load]
  simp only [hlink, hinfo, hcontent, getElem?_loaded htarget, hsymtab, readSymbols_load h, htable,
    mapM_map_eq_some hread, Option.bind_eq_bind, Option.bind_some]
  rfl

theorem relocType_lt (kind : FixupKind) : kind.relocType < 2 ^ 32 := by
  cases kind <;> decide

theorem readRelocs_text (h : parts.Writable) :
    readRelocs parts.loaded (parts.load .relaText)
      = some (utf8 ".text", parts.fixups.map fixupView) := by
  have hname : ∀ fixup ∈ parts.fixups, fixup.symbol ∈ parts.symbolNames := fun fixup hfixup =>
    h.registered _ (List.mem_append_left _ (List.mem_map_of_mem hfixup))
  apply readRelocs_load h .text rfl rfl (mem_sectionIds_of_present _ _ (by decide) rfl) rfl
  · intro fixup hfixup
    have hoffset := h.fixups_fit fixup hfixup
    exact fits_relaEntry h (by omega) (hname fixup hfixup) (relocType_lt _)
  · intro fixup hfixup
    exact readReloc_relaEntry (hname fixup hfixup) (relocType_lt _) (by decide)

theorem readRelocs_data (h : parts.Writable) {kind : SectionKind} (hkind : kind ∈ SectionKind.inFile)
    (hpresent : SectionId.data kind ∈ parts.sectionIds) :
    readRelocs parts.loaded (parts.load (.rela kind))
      = some (utf8 (SectionId.data kind).name, (parts.dataRelocs kind).map relocView) := by
  have hname : ∀ reloc ∈ parts.dataRelocs kind, reloc.symbol ∈ parts.symbolNames :=
    fun reloc hreloc => h.registered _ (List.mem_append_right _
      (List.mem_flatMap.mpr ⟨kind, hkind, List.mem_map_of_mem hreloc⟩))
  apply readRelocs_load h (.data kind) rfl rfl hpresent rfl
  · intro reloc hreloc
    have hfit := h.relocs_fit kind reloc hreloc
    exact fits_relaEntry h hfit.1 (hname reloc hreloc) (by decide)
  · intro reloc hreloc
    exact readReloc_relaEntry (hname reloc hreloc) (by decide) (h.relocs_fit kind reloc hreloc).2

/-! ## Reading the object -/

/-- Rows of one kind that are present, as a list of what the sections have. -/
theorem map_filter_present {β : Type} {kinds : List SectionKind} {row : SectionKind → SectionId}
    {f : SectionId → β} {v : SectionKind → Option β}
    (h : ∀ kind ∈ kinds, v kind = if parts.present (row kind) then some (f (row kind)) else none) :
    ((kinds.map row).filter parts.present).map f = kinds.filterMap v := by
  induction kinds with
  | nil => rfl
  | cons kind kinds ih =>
    have hkind := h kind List.mem_cons_self
    have hrest := ih fun k hk => h k (List.mem_cons_of_mem _ hk)
    rw [List.map_cons, List.filter_cons, List.filterMap_cons, hkind]
    split
    · rw [List.map_cons, hrest]
    · exact hrest

theorem filter_loaded (parts : ObjectParts) {p : LoadedSection → Bool} {q : SectionId → Bool}
    (hnull : p ⟨[], nullHeader, []⟩ = false) (h : ∀ id, p (parts.load id) = q id) :
    parts.loaded.filter p
      = ((SectionId.all.filter q).filter parts.present).map parts.load := by
  have hfun : p ∘ parts.load = q := funext h
  rw [loaded, List.filter_cons_of_neg (by rw [hnull]; decide), List.filter_map, hfun, sectionIds,
    List.filter_filter, List.filter_filter]
  congr 2
  funext id
  exact Bool.and_comm _ _

/-- The rows of the program's image. -/
def isAlloc : SectionId → Bool
  | .text | .data _ => true
  | _ => false

theorem isAlloc_load (parts : ObjectParts) (id : SectionId) :
    decide ((parts.load id).header.flags &&& flagAlloc ≠ 0) = isAlloc id := by
  cases id with
  | text =>
    change decide ((flagAlloc ||| flagExec) &&& flagAlloc ≠ 0) = true
    decide
  | data kind =>
    have hflags : (parts.load (.data kind)).header.flags = kind.flags := by cases kind <;> rfl
    rw [hflags]
    cases kind <;> decide
  | _ =>
    change decide (0 &&& flagAlloc ≠ 0) = false
    decide

theorem sections_view (parts : ObjectParts) :
    (parts.loaded.filter (·.header.flags &&& flagAlloc ≠ 0)).map LoadedSection.view
      = parts.view.sections := by
  have halloc : SectionId.all.filter isAlloc = .text :: SectionKind.all.map .data := rfl
  rw [filter_loaded parts rfl (isAlloc_load parts), halloc, List.map_map,
    List.filter_cons_of_pos rfl, List.map_cons]
  congr 1
  apply map_filter_present
  intro kind _
  rw [dataSectionView, present]
  cases hsec : parts.sections kind with
  | none => rfl
  | some sec =>
    rw [Option.isSome_some, if_pos rfl, Option.map_some]
    cases kind <;>
      simp only [Function.comp, LoadedSection.view, load, rowContent, dataBytes, dataAlign,
        sectionHeader, header, hsec, Option.map_some, Option.getD_some, dataType]

def isRela : SectionId → Bool
  | .relaText | .rela _ => true
  | _ => false

theorem isRela_load (parts : ObjectParts) (id : SectionId) :
    decide ((parts.load id).header.type = typeRela) = isRela id := by
  cases id with
  | data kind => cases kind <;> rfl
  | _ => rfl

/-- A section with relocations is present. -/
theorem present_data_of_rela {kind : SectionKind} (h : parts.present (.rela kind) = true) :
    parts.present (.data kind) = true := by
  change (parts.sections kind).any _ = true at h
  change (parts.sections kind).isSome = true
  cases hsec : parts.sections kind with
  | none => rw [hsec] at h; cases h
  | some sec => rfl

theorem present_rela_iff {kind : SectionKind} :
    parts.present (.rela kind) = true ↔ parts.dataRelocs kind ≠ [] := by
  rw [present, dataRelocs]
  cases parts.sections kind with
  | none => simp
  | some sec => simp

/-- What a relocation row is read back as. -/
def relaView (parts : ObjectParts) : SectionId → List UInt8 × List RelocView
  | .rela kind => (utf8 (SectionId.data kind).name, (parts.dataRelocs kind).map relocView)
  | _ => (utf8 ".text", parts.fixups.map fixupView)

theorem relocs_view (h : parts.Writable) :
    (parts.loaded.filter (·.header.type = typeRela)).mapM (readRelocs parts.loaded)
      = some parts.view.relocs := by
  have hrela : SectionId.all.filter isRela = .relaText :: SectionKind.inFile.map .rela := rfl
  rw [filter_loaded parts rfl (isRela_load parts), hrela, List.filter_cons_of_pos rfl,
    mapM_map_eq_some (h := parts.relaView), List.map_cons]
  · congr 2
    apply map_filter_present
    intro kind _
    rw [dataRelocsView]
    by_cases hempty : parts.dataRelocs kind = []
    · rw [if_pos hempty, if_neg (fun hp => present_rela_iff.mp hp hempty)]
    · rw [if_neg hempty, if_pos (present_rela_iff.mpr hempty)]
      rfl
  · intro id hid
    rcases List.mem_cons.mp hid with rfl | hid
    · exact readRelocs_text h
    · obtain ⟨hmem, hpresent⟩ := List.mem_filter.mp hid
      obtain ⟨kind, hkind, rfl⟩ := List.mem_map.mp hmem
      apply readRelocs_data h hkind
      apply mem_sectionIds_of_present _ _ _ (present_data_of_rela hpresent)
      cases kind <;> decide

theorem find?_symtab (parts : ObjectParts) :
    parts.loaded.find? (·.header.type = typeSymtab) = some (parts.load .symtab) := by
  have hrow (id : SectionId) :
      decide ((parts.load id).header.type = typeSymtab) = decide (id = .symtab) := by
    cases id with
    | data kind => cases kind <;> rfl
    | _ => rfl
  have hmem : SectionId.symtab ∈ parts.sectionIds := mem_sectionIds_of_present _ _ (by decide) rfl
  have hfun : (fun s : LoadedSection => decide (s.header.type = typeSymtab)) ∘ parts.load
      = fun id => decide (id = .symtab) := funext hrow
  have hsome : (parts.sectionIds.find? fun id => decide (id = .symtab)).isSome := by
    rw [List.find?_isSome]
    exact ⟨.symtab, hmem, rfl⟩
  obtain ⟨id, hid⟩ := Option.isSome_iff_exists.mp hsome
  have hfound := List.find?_some hid
  have hsymtab : id = .symtab := of_decide_eq_true hfound
  rw [loaded, List.find?_cons_of_neg (by decide), List.find?_map, hfun, hid, hsymtab]
  rfl

theorem readObject_elfImage (h : parts.Writable) : readObject parts.elfImage = some parts.view := by
  rw [readObject, readFileHeader_elfImage h, readSections_elfImage h]
  simp only [Option.bind_eq_bind, Option.bind_some, find?_symtab, readSymbols_load h, relocs_view h,
    sections_view]
  rfl

/-- A symbol that is not defined, or not weak, is global: none is local. -/
theorem binding_view (parts : ObjectParts) :
    ∀ symbol ∈ parts.view.symbols, symbol.binding ≠ bindLocal := by
  intro symbol hsymbol
  rcases List.mem_append.mp hsymbol with hsymbol | hsymbol
  · obtain ⟨source, -, rfl⟩ := List.mem_map.mp hsymbol
    change (if source.name ∈ parts.weakSymbols then bindWeak else bindGlobal) ≠ bindLocal
    split <;> decide
  · obtain ⟨kind, -, hsymbol⟩ := List.mem_flatMap.mp hsymbol
    obtain ⟨source, -, rfl⟩ := List.mem_map.mp hsymbol
    exact Nat.succ_ne_zero _

end ObjectParts

/-! ## The writer is faithful -/

/-- Reading back what the writer has written gives the parts, every symbol of
    them global or weak, and the headers describe the file. -/
theorem readObject_writeElfObject (parts : ObjectParts) (h : parts.Writable) :
    ∃ file, writeElfObject parts = some file ∧
      readObject file = some parts.view ∧
      (∀ symbol ∈ parts.view.symbols, symbol.binding ≠ bindLocal) ∧
      ∃ header headers, readSectionHeaders file = some (header, headers) ∧
        WellFormed file header headers :=
  ⟨parts.elfImage, if_pos h.registered, ObjectParts.readObject_elfImage h,
    ObjectParts.binding_view parts, parts.fileHeader, parts.sectionHeaders,
    ObjectParts.readSectionHeaders_elfImage h, ObjectParts.wellFormed_elfImage h.aligned⟩

/-- A function that calls another, a thread-local counter and a table with a
    pointer back to the function. -/
def sampleParts : ObjectParts where
  text := [0, 0, 0, 0x94, 0xc0, 0x03, 0x5f, 0xd6]
  symbols := [⟨"f", 0, true, true⟩, ⟨"g", 0, true, false⟩]
  fixups := [⟨0, "g", .call26⟩]
  weakSymbols := ["f"]
  sections
    | .relro => some ⟨16, [0, 0, 0, 0, 0, 0, 0, 0], [⟨"table", 0, 8⟩], [⟨0, "f", -8⟩]⟩
    | .tbss => some ⟨8, [0, 0, 0, 0], [⟨"counter", 0, 4⟩], []⟩
    | _ => none

set_option maxRecDepth 8000 in
theorem writable_sampleParts : sampleParts.Writable where
  aligned := by
    intro kind sec hsec
    cases kind <;> cases hsec
    · exact ⟨4, rfl⟩
    · exact ⟨3, rfl⟩
  registered := by decide
  tbss_zero := fun b hb => List.eq_of_mem_replicate (show b ∈ List.replicate 4 0 from hb)
  tbss_relocs := rfl
  nul_free := by decide
  symbols_fit := by decide
  fixups_fit := by decide
  relocs_fit := by
    intro kind
    cases kind <;> decide
  aligns_fit := by
    intro kind
    cases kind <;> decide
  strtab_fits := by decide
  file_fits := by with_unfolding_all decide
  tbss_fits := by decide

theorem readObject_writeElfObject_sample :
    ∃ file, writeElfObject sampleParts = some file ∧
      readObject file = some sampleParts.view ∧
      (∀ symbol ∈ sampleParts.view.symbols, symbol.binding ≠ bindLocal) ∧
      ∃ header headers, readSectionHeaders file = some (header, headers) ∧
        WellFormed file header headers :=
  readObject_writeElfObject sampleParts writable_sampleParts

/-! ## What the writer does not keep -/

/-- A defined symbol that is not external. -/
def localParts : ObjectParts where
  text := [0xc0, 0x03, 0x5f, 0xd6]
  symbols := [⟨"f", 0, false, true⟩]
  fixups := []
  weakSymbols := []
  sections _ := none

/-- The same with a name that has a NUL in it. -/
def nulParts : ObjectParts := { localParts with symbols := [⟨"f\x00g", 0, true, true⟩] }

/-- A relocation against a name that has no symbol. -/
def danglingParts : ObjectParts := { localParts with fixups := [⟨0, "g", .call26⟩] }

/-- A `.tbss` with a byte that is not zero. -/
def dirtyParts : ObjectParts :=
  { localParts with
    sections := fun
      | .tbss => some ⟨1, [1], [], []⟩
      | _ => none }

set_option maxRecDepth 8000 in
/-- A local symbol comes back as a global one; nor do a NUL in a name and a set
    byte of `.tbss` survive, and a relocation without a symbol is a panic. -/
theorem writeElfObject_not_faithful :
    localParts.symbols.map Symbol.external = [false] ∧
      (((writeElfObject localParts).bind readObject).map fun o =>
        o.symbols.map SymbolView.binding) = some [bindGlobal] ∧
      (((writeElfObject nulParts).bind readObject).map fun o =>
        o.symbols.map SymbolView.name) = some [utf8 "f"] ∧
      writeElfObject danglingParts = none ∧
      (((writeElfObject dirtyParts).bind readObject).map fun o =>
        o.sections.map SectionView.content) = some [localParts.text, [0]] := by
  with_unfolding_all decide

end Crabbit.Aarch64
