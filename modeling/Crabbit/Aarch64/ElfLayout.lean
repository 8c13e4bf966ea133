/-
  Crabbit.Aarch64.ElfLayout

  Where the ELF writer puts things: its file is a sequence of chunks in order
  of their offsets, so every row of the section header table finds its bytes
  at its offset, and no two of them overlap.
-/

import Crabbit.Aarch64.Elf

namespace Crabbit.Aarch64

open Crabbit.Lib Crabbit.Lib.Elf64

/-- The rows with bytes in the file, in the order of the file. -/
def SectionId.fileOrder : List SectionId :=
  [.text, .data .rodata, .data .relro, .data .data, .data .tdata, .relaText, .rela .rodata,
    .rela .relro, .rela .data, .rela .tdata, .symtab, .strtab, .note, .shstrtab]

/-- All rows but `.tbss` have bytes in the file. -/
def SectionId.inFile : SectionId → Bool
  | .data .tbss => false
  | _ => true

namespace ObjectParts

/-- Section alignments are powers of two, zero standing for one. -/
def Aligned (parts : ObjectParts) : Prop :=
  ∀ kind sec, parts.sections kind = some sec → ∃ k, max sec.align 1 = 2 ^ k

variable {parts : ObjectParts}

theorem Aligned.dataAlign (h : parts.Aligned) (kind : SectionKind) :
    ∃ k, parts.dataAlign kind = 2 ^ k := by
  rw [ObjectParts.dataAlign]
  cases hsec : parts.sections kind with
  | none => exact ⟨0, rfl⟩
  | some sec => exact h kind sec hsec

theorem Aligned.le_placeAt (h : parts.Aligned) (cursor : Nat) (kind : SectionKind) :
    cursor ≤ parts.placeAt cursor kind := by
  obtain ⟨k, hk⟩ := h.dataAlign kind
  rw [placeAt]
  split
  · rw [hk]
    exact le_roundUp cursor k
  · exact Nat.le_refl _

theorem Aligned.dvd_placeAt (h : parts.Aligned) (cursor : Nat) {kind : SectionKind}
    (hpresent : parts.present (.data kind) = true) :
    parts.dataAlign kind ∣ parts.placeAt cursor kind := by
  obtain ⟨k, hk⟩ := h.dataAlign kind
  have hsome : (parts.sections kind).isSome = true := hpresent
  rw [placeAt, if_pos hsome, hk]
  exact dvd_roundUp cursor k

theorem le_align8 (value : Nat) : value ≤ roundUp value 8 := le_roundUp value 3

theorem dvd_align8 (value : Nat) : 8 ∣ roundUp value 8 := dvd_roundUp value 3

/-! ## Chunks -/

/-- A row's bytes at its offset. -/
def chunk (parts : ObjectParts) (id : SectionId) : Nat × List UInt8 :=
  (parts.offset id, parts.fileBytes id)

/-- The table of section headers at its offset. -/
def tableChunk (parts : ObjectParts) : Nat × List UInt8 :=
  (parts.shoff, Elf64.sectionHeader.encodeTable parts.sectionHeaders)

def chunks (parts : ObjectParts) : List (Nat × List UInt8) :=
  SectionId.fileOrder.map parts.chunk ++ [parts.tableChunk]

/-- What the file begins with. -/
def start (parts : ObjectParts) : List UInt8 := ident ++ Elf64.fileHeader.encode parts.fileHeader

theorem length_start (parts : ObjectParts) : parts.start.length = 64 := by
  rw [start, List.length_append, Codec.length_encode]
  rfl

theorem ordered_text (h : parts.Aligned) :
    Ordered 64 ([.text, .data .rodata, .data .relro, .data .data, .data .tdata].map parts.chunk) :=
  ⟨Nat.le_refl 64, h.le_placeAt _ _, h.le_placeAt _ _, h.le_placeAt _ _, h.le_placeAt _ _, trivial⟩

/-- The relocations of one section follow those of another without a gap. -/
theorem ordered_rela (parts : ObjectParts) :
    Ordered parts.relaTextOffset
      ([.relaText, .rela .rodata, .rela .relro, .rela .data, .rela .tdata].map parts.chunk) :=
  ⟨Nat.le_refl _, Nat.le_refl _, Nat.le_refl _, Nat.le_refl _, Nat.le_refl _, trivial⟩

theorem ordered_tables (parts : ObjectParts) :
    Ordered parts.symtabOffset ([.symtab, .strtab, .note, .shstrtab].map parts.chunk ++
      [parts.tableChunk]) :=
  ⟨Nat.le_refl _, Nat.le_refl _, Nat.le_refl _, Nat.le_refl _, le_align8 _, trivial⟩

theorem ordered_chunks (h : parts.Aligned) : Ordered 64 parts.chunks := by
  have hrela := ordered_append.mpr ⟨ordered_rela parts, (ordered_tables parts).mono (le_align8 _)⟩
  have hall := ordered_append.mpr ⟨ordered_text h, hrela.mono (le_align8 _)⟩
  exact hall

/-! ## The file is its chunks -/

theorem fileBytes_data (parts : ObjectParts) {kind : SectionKind} (hkind : kind ∈ SectionKind.inFile) :
    parts.fileBytes (.data kind) = parts.dataBytes kind := by
  cases kind with
  | tbss => exact absurd hkind (by decide)
  | _ => rfl

/-- Writing a data section puts its chunk behind what is there; an absent
    section is an empty chunk at the cursor. -/
theorem writeData_step (h : parts.Aligned) (kind : SectionKind) {out : List UInt8}
    {before : List SectionKind} (hkind : kind ∈ SectionKind.inFile)
    (hlen : out.length = parts.cursorAfter before)
    (hoff : parts.offset (.data kind) = parts.placeAt (parts.cursorAfter before) kind) :
    parts.writeData out kind = emit 0 out (parts.chunk (.data kind)) ∧
      (emit 0 out (parts.chunk (.data kind))).length = parts.cursorAfter (before ++ [kind]) := by
  have hbytes := fileBytes_data parts hkind
  constructor
  · rw [writeData, chunk, hbytes, dataBytes]
    cases hsec : parts.sections kind with
    | some sec => rfl
    | none =>
      have hcursor : parts.offset (.data kind) = parts.cursorAfter before := by
        rw [hoff, placeAt, hsec]
        rfl
      rw [hcursor]
      change out = _
      rw [← append_eq_emit 0 hlen]
      exact (List.append_nil out).symm
  · rw [length_emit 0, cursorAfter, List.foldl_append, List.foldl_cons, List.foldl_nil,
      ← cursorAfter, place]
    · change parts.offset (.data kind) + (parts.fileBytes (.data kind)).length = _
      rw [hoff, hbytes]
    · change out.length ≤ parts.offset (.data kind)
      rw [hlen, hoff]
      exact h.le_placeAt _ _

theorem rela_step (kind : SectionKind) {out : List UInt8} {before : List SectionKind}
    (hlen : out.length = parts.relaAfter before)
    (hoff : parts.offset (.rela kind) = parts.relaAfter before) :
    out ++ parts.fileBytes (.rela kind) = emit 0 out (parts.chunk (.rela kind)) ∧
      (emit 0 out (parts.chunk (.rela kind))).length = parts.relaAfter (before ++ [kind]) := by
  constructor
  · exact append_eq_emit 0 (hlen.trans hoff.symm)
  · rw [length_emit 0 _ (hlen.trans hoff.symm).le, relaAfter, List.foldl_append, List.foldl_cons,
      List.foldl_nil, ← relaAfter]
    change parts.offset (.rela kind) + _ = _
    rw [hoff]
    rfl

/-- The data sections behind the text. -/
theorem foldl_writeData (h : parts.Aligned) {out : List UInt8}
    (hlen : out.length = parts.cursorAfter []) :
    SectionKind.inFile.foldl parts.writeData out
        = emitAll 0 out ([.data .rodata, .data .relro, .data .data, .data .tdata].map parts.chunk) ∧
      (SectionKind.inFile.foldl parts.writeData out).length
        = parts.cursorAfter SectionKind.inFile := by
  obtain ⟨e1, l1⟩ := writeData_step h .rodata (by decide) hlen rfl
  obtain ⟨e2, l2⟩ := writeData_step h .relro (by decide) l1 rfl
  obtain ⟨e3, l3⟩ := writeData_step h .data (by decide) l2 rfl
  obtain ⟨e4, l4⟩ := writeData_step h .tdata (by decide) l3 rfl
  simp only [SectionKind.inFile, List.foldl_cons, List.foldl_nil, e1, e2, e3, e4]
  exact ⟨rfl, l4⟩

/-- The relocations of the data sections behind those of the text. -/
theorem foldl_rela {out : List UInt8} (hlen : out.length = parts.relaAfter []) :
    SectionKind.inFile.foldl (fun out kind => out ++ parts.fileBytes (.rela kind)) out
        = emitAll 0 out ([.rela .rodata, .rela .relro, .rela .data, .rela .tdata].map parts.chunk) ∧
      (SectionKind.inFile.foldl (fun out kind => out ++ parts.fileBytes (.rela kind)) out).length
        = parts.relaAfter SectionKind.inFile := by
  obtain ⟨e1, l1⟩ := rela_step .rodata hlen rfl
  obtain ⟨e2, l2⟩ := rela_step .relro l1 rfl
  obtain ⟨e3, l3⟩ := rela_step .data l2 rfl
  obtain ⟨e4, l4⟩ := rela_step .tdata l3 rfl
  simp only [SectionKind.inFile, List.foldl_cons, List.foldl_nil, e1, e2, e3, e4]
  exact ⟨rfl, l4⟩

theorem emit_eq_append {out : List UInt8} {id : SectionId} (hlen : out.length = parts.offset id) :
    emit 0 out (parts.chunk id) = out ++ parts.fileBytes id :=
  (append_eq_emit 0 hlen).symm

/-- The symbol and string tables behind the relocations; the empty note leaves
    everything as it is. -/
theorem tables_eq {out : List UInt8} (hlen : out.length ≤ parts.symtabOffset) :
    padTo 0 out parts.symtabOffset ++ parts.fileBytes .symtab ++ parts.fileBytes .strtab ++
        parts.fileBytes .shstrtab
      = emitAll 0 out ([.symtab, .strtab, .note, .shstrtab].map parts.chunk) := by
  have hsymtab : (emit 0 out (parts.chunk .symtab)).length = parts.offset .strtab :=
    length_emit 0 _ hlen
  have hfirst : padTo 0 out parts.symtabOffset ++ parts.fileBytes .symtab
      = emit 0 out (parts.chunk .symtab) := rfl
  rw [hfirst, List.map_cons, emitAll_cons]
  generalize emit 0 out (parts.chunk .symtab) = out at hsymtab
  have hstrtab : (out ++ parts.fileBytes .strtab).length = parts.offset .note := by
    rw [List.length_append, hsymtab]
    rfl
  have hnote : (out ++ parts.fileBytes .strtab ++ parts.fileBytes .note).length
      = parts.offset .shstrtab := by
    rw [List.length_append, hstrtab]
    rfl
  rw [List.map_cons, emitAll_cons, emit_eq_append hsymtab, List.map_cons, emitAll_cons,
    emit_eq_append hstrtab, List.map_cons, emitAll_cons, emit_eq_append hnote]
  have hempty : parts.fileBytes .note = [] := rfl
  rw [hempty, List.append_nil]
  rfl

theorem elfImage_eq (h : parts.Aligned) : parts.elfImage = emitAll 0 parts.start parts.chunks := by
  have hstart : parts.start.length ≤ (parts.chunk .text).1 := (length_start parts).le
  obtain ⟨hdata, ldata⟩ := foldl_writeData h (length_emit 0 _ hstart)
  obtain ⟨hrela, lrela⟩ := foldl_rela
    (length_emit 0 (parts.chunk .relaText) (ldata.trans_le (le_align8 _)))
  have htables := tables_eq (lrela.trans_le (le_align8 _))
  have hchunks : parts.chunks = parts.chunk .text ::
      ([.data .rodata, .data .relro, .data .data, .data .tdata].map parts.chunk ++
        (parts.chunk .relaText ::
          ([.rela .rodata, .rela .relro, .rela .data, .rela .tdata].map parts.chunk ++
            ([.symtab, .strtab, .note, .shstrtab].map parts.chunk ++ [parts.tableChunk])))) := rfl
  rw [hchunks, emitAll_cons, emitAll_append, ← hdata, emitAll_cons, emitAll_append, ← hrela,
    emitAll_append, ← htables]
  rfl

/-! ## What is found where -/

theorem length_table (parts : ObjectParts) :
    (Elf64.sectionHeader.encodeTable parts.sectionHeaders).length
      = parts.sectionHeaders.length * 64 :=
  Codec.length_encodeTable _ _

theorem ordered_start (h : parts.Aligned) : Ordered parts.start.length parts.chunks := by
  rw [length_start]
  exact ordered_chunks h

theorem sliceAt_fileBytes (h : parts.Aligned) {id : SectionId} (hid : id ∈ SectionId.fileOrder) :
    sliceAt parts.elfImage (parts.offset id) (parts.fileBytes id).length
      = some (parts.fileBytes id) := by
  rw [elfImage_eq h]
  exact sliceAt_emitAll (ordered_start h) (parts.chunk id)
    (List.mem_append_left _ (List.mem_map_of_mem hid))

theorem sliceAt_table (h : parts.Aligned) :
    sliceAt parts.elfImage parts.shoff (parts.sectionHeaders.length * 64)
      = some (Elf64.sectionHeader.encodeTable parts.sectionHeaders) := by
  rw [elfImage_eq h, ← length_table]
  exact sliceAt_emitAll (ordered_start h) parts.tableChunk
    (List.mem_append_right _ List.mem_cons_self)

theorem sliceAt_ident (h : parts.Aligned) : sliceAt parts.elfImage 0 16 = some ident := by
  rw [elfImage_eq h]
  apply sliceAt_emitAll_of
  rw [sliceAt_eq_some_iff]
  exact ⟨[], _, rfl, rfl, rfl⟩

theorem sliceAt_fileHeader (h : parts.Aligned) :
    sliceAt parts.elfImage 16 48 = some (Elf64.fileHeader.encode parts.fileHeader) := by
  rw [elfImage_eq h]
  apply sliceAt_emitAll_of
  rw [sliceAt_eq_some_iff]
  exact ⟨ident, [], (List.append_nil _).symm, rfl, Codec.length_encode _ _⟩

theorem length_elfImage (h : parts.Aligned) :
    parts.elfImage.length = parts.shoff + parts.sectionHeaders.length * 64 := by
  rw [elfImage_eq h, length_emitAll (ordered_start h), chunks, endOf_append]
  change parts.shoff + (Elf64.sectionHeader.encodeTable parts.sectionHeaders).length = _
  rw [length_table]

/-- Every row with bytes lies behind the file header and before the table. -/
theorem bounds_chunk (h : parts.Aligned) {id : SectionId} (hid : id ∈ SectionId.fileOrder) :
    64 ≤ parts.offset id ∧ parts.offset id + (parts.fileBytes id).length ≤ parts.shoff := by
  obtain ⟨hrows, htable⟩ := ordered_append.mp (ordered_chunks h)
  obtain ⟨hlo, hhi⟩ := hrows.bounds (parts.chunk id) (List.mem_map_of_mem hid)
  exact ⟨hlo, Nat.le_trans hhi htable.1⟩

/-! ## The file is well formed -/

theorem dvd_relaAfter (parts : ObjectParts) (kinds : List SectionKind) :
    8 ∣ parts.relaAfter kinds := by
  have hentries (id : SectionId) (entries : List RelaEntry)
      (hbytes : parts.fileBytes id = Elf64.relaEntry.encodeTable entries) :
      8 ∣ (parts.fileBytes id).length := by
    rw [hbytes, Codec.length_encodeTable]
    exact Dvd.dvd.mul_left ⟨3, rfl⟩ _
  have hstart : 8 ∣ parts.relaTextOffset + (parts.fileBytes .relaText).length :=
    Nat.dvd_add (dvd_align8 _) (hentries .relaText _ rfl)
  rw [relaAfter]
  generalize parts.relaTextOffset + (parts.fileBytes .relaText).length = pos at hstart
  induction kinds generalizing pos with
  | nil => exact hstart
  | cons kind kinds ih => exact ih _ (Nat.dvd_add hstart (hentries (.rela kind) _ rfl))

theorem dvd_offset (h : parts.Aligned) {id : SectionId} (hid : id ∈ parts.sectionIds) :
    (parts.sectionHeader id).addralign ∣ (parts.sectionHeader id).offset := by
  have hpresent : parts.present id = true := (List.mem_filter.mp hid).2
  cases id with
  | text => exact ⟨16, rfl⟩
  | relaText => exact dvd_align8 _
  | symtab => exact dvd_align8 _
  | strtab => exact one_dvd _
  | note => exact one_dvd _
  | shstrtab => exact one_dvd _
  | data kind => cases kind <;> exact h.dvd_placeAt _ hpresent
  | rela kind => cases kind <;> exact dvd_relaAfter parts _

theorem inFile_sectionHeader (parts : ObjectParts) (id : SectionId) :
    decide (parts.sectionHeader id).InFile = id.inFile := by
  cases id with
  | data kind => cases kind <;> rfl
  | _ => rfl

theorem range_sectionHeader (parts : ObjectParts) {id : SectionId} (hid : id.inFile = true) :
    (parts.sectionHeader id).range = (parts.offset id, (parts.fileBytes id).length) := by
  cases id with
  | data kind =>
    cases kind with
    | tbss => cases hid
    | _ => rfl
  | _ => rfl

/-- The rows with bytes, whether they are present or not, are those of the
    file in another order. -/
theorem perm_fileOrder : (SectionId.all.filter SectionId.inFile).Perm SectionId.fileOrder := by
  decide

theorem pairwise_fileOrder (h : parts.Aligned) :
    SectionId.fileOrder.Pairwise fun a b =>
      Apart (parts.offset a, (parts.fileBytes a).length)
        (parts.offset b, (parts.fileBytes b).length) := by
  have hpairwise := (List.pairwise_append.mp (ordered_chunks h).pairwise).1
  rw [List.pairwise_map] at hpairwise
  exact hpairwise.imp Or.inl

theorem pairwise_sectionIds (h : parts.Aligned) :
    (parts.sectionIds.filter SectionId.inFile).Pairwise fun a b =>
      Apart (parts.offset a, (parts.fileBytes a).length)
        (parts.offset b, (parts.fileBytes b).length) := by
  have hall := (perm_fileOrder.pairwise_iff Apart.symm).mpr (pairwise_fileOrder h)
  exact hall.sublist (List.filter_sublist.filter _)

theorem filter_sectionHeaders (parts : ObjectParts) :
    (parts.sectionHeaders.filter fun s => s.InFile).map SectionHeader.range
      = (parts.sectionIds.filter SectionId.inFile).map fun id =>
          (parts.offset id, (parts.fileBytes id).length) := by
  rw [sectionHeaders, List.filter_cons_of_neg (by decide), List.filter_map, List.map_map]
  have hfun : ((fun s : SectionHeader => decide s.InFile) ∘ parts.sectionHeader)
      = SectionId.inFile := funext fun id => inFile_sectionHeader parts id
  rw [hfun]
  apply List.map_congr_left
  intro id hid
  exact range_sectionHeader parts (List.mem_filter.mp hid).2

theorem mem_fileOrder {id : SectionId} (hid : id ∈ parts.sectionIds) (hfile : id.inFile = true) :
    id ∈ SectionId.fileOrder :=
  perm_fileOrder.mem_iff.mp (List.mem_filter.mpr ⟨(List.mem_filter.mp hid).1, hfile⟩)

/-- The headers of the file describe disjoint, aligned parts of it. -/
theorem wellFormed_elfImage (h : parts.Aligned) :
    WellFormed parts.elfImage parts.fileHeader parts.sectionHeaders where
  disjoint := by
    rw [filter_sectionHeaders]
    have hbounds : ∀ range ∈ (parts.sectionIds.filter SectionId.inFile).map fun id =>
        (parts.offset id, (parts.fileBytes id).length),
        64 ≤ range.1 ∧ range.1 + range.2 ≤ parts.shoff := by
      intro range hrange
      obtain ⟨id, hid, rfl⟩ := List.mem_map.mp hrange
      obtain ⟨hid, hfile⟩ := List.mem_filter.mp hid
      exact bounds_chunk h (mem_fileOrder hid hfile)
    have hshoff : 64 ≤ parts.shoff := by
      have htext := bounds_chunk h (show SectionId.text ∈ SectionId.fileOrder from List.mem_cons_self)
      omega
    refine List.pairwise_cons.mpr ⟨?_, List.pairwise_cons.mpr ⟨?_, ?_⟩⟩
    · intro range hrange
      rcases List.mem_cons.mp hrange with rfl | hrange
      · exact Or.inl hshoff
      · exact Or.inl (hbounds range hrange).1
    · exact fun range hrange => Or.inr (hbounds range hrange).2
    · exact List.pairwise_map.mpr (pairwise_sectionIds h)
  inside := by
    rw [length_elfImage h]
    refine ⟨Nat.le_refl _, ?_⟩
    intro s hs hfile
    rcases List.mem_cons.mp hs with rfl | hs
    · exact absurd hfile (by decide)
    · obtain ⟨id, hid, rfl⟩ := List.mem_map.mp hs
      have hid' : id.inFile = true := by
        rw [← inFile_sectionHeader parts id]
        exact decide_eq_true hfile
      have hrange := range_sectionHeader parts hid'
      have hbound := (bounds_chunk h (mem_fileOrder hid hid')).2
      rw [SectionHeader.range, Prod.mk.injEq] at hrange
      rw [hrange.1, hrange.2]
      omega
  aligned := by
    refine ⟨dvd_align8 _, ?_⟩
    intro s hs
    rcases List.mem_cons.mp hs with rfl | hs
    · exact dvd_refl 0
    · obtain ⟨id, hid, rfl⟩ := List.mem_map.mp hs
      exact dvd_offset h hid

end ObjectParts

end Crabbit.Aarch64
