/-
  Crabbit.Lib.Elf64

  ELF64 relocatable objects: the records of the format, and a reader that
  goes from the file header to the section headers, and by their links to
  the sections, the symbols and the relocations of an object.
-/

import Crabbit.Lib.Record
import Crabbit.Lib.TwosComplement

namespace Crabbit.Lib.Elf64

/-! ## Constants -/

def typeRel : Nat := 1

def typeNull : Nat := 0
def typeProgbits : Nat := 1
def typeSymtab : Nat := 2
def typeStrtab : Nat := 3
def typeRela : Nat := 4
def typeNobits : Nat := 8

def flagWrite : Nat := 0x1
def flagAlloc : Nat := 0x2
def flagExec : Nat := 0x4
def flagTls : Nat := 0x400

def bindLocal : Nat := 0
def bindGlobal : Nat := 1
def bindWeak : Nat := 2

/-- The sixteen bytes a file begins with: 64-bit, little-endian, version 1,
    System V. -/
def ident : List UInt8 := [0x7f, 0x45, 0x4c, 0x46, 2, 1, 1, 0, 0, 0, 0, 0, 0, 0, 0, 0]

/-! ## Records -/

/-- What follows `ident` in the file header. -/
structure FileHeader where
  type : Nat
  machine : Nat
  version : Nat
  entry : Nat
  phoff : Nat
  shoff : Nat
  flags : Nat
  ehsize : Nat
  phentsize : Nat
  phnum : Nat
  shentsize : Nat
  shnum : Nat
  shstrndx : Nat
  deriving DecidableEq

def fileHeader : Codec FileHeader where
  widths := [2, 2, 4, 8, 8, 8, 4, 2, 2, 2, 2, 2, 2]
  values h := [h.type, h.machine, h.version, h.entry, h.phoff, h.shoff, h.flags, h.ehsize,
    h.phentsize, h.phnum, h.shentsize, h.shnum, h.shstrndx]
  ofValues
    | [type, machine, version, entry, phoff, shoff, flags, ehsize, phentsize, phnum, shentsize,
        shnum, shstrndx] =>
      some { type, machine, version, entry, phoff, shoff, flags, ehsize, phentsize, phnum,
             shentsize, shnum, shstrndx }
    | _ => none
  length_values _ := rfl
  ofValues_values _ := rfl

structure SectionHeader where
  name : Nat
  type : Nat
  flags : Nat
  addr : Nat
  offset : Nat
  size : Nat
  link : Nat
  info : Nat
  addralign : Nat
  entsize : Nat
  deriving DecidableEq

def sectionHeader : Codec SectionHeader where
  widths := [4, 4, 8, 8, 8, 8, 4, 4, 8, 8]
  values h := [h.name, h.type, h.flags, h.addr, h.offset, h.size, h.link, h.info, h.addralign,
    h.entsize]
  ofValues
    | [name, type, flags, addr, offset, size, link, info, addralign, entsize] =>
      some { name, type, flags, addr, offset, size, link, info, addralign, entsize }
    | _ => none
  length_values _ := rfl
  ofValues_values _ := rfl

structure SymEntry where
  name : Nat
  info : Nat
  other : Nat
  shndx : Nat
  value : Nat
  size : Nat
  deriving DecidableEq

def symEntry : Codec SymEntry where
  widths := [4, 1, 1, 2, 8, 8]
  values e := [e.name, e.info, e.other, e.shndx, e.value, e.size]
  ofValues
    | [name, info, other, shndx, value, size] =>
      some { name, info, other, shndx, value, size }
    | _ => none
  length_values _ := rfl
  ofValues_values _ := rfl

/-- The reserved first entry of a symbol table. -/
def SymEntry.null : SymEntry := ⟨0, 0, 0, 0, 0, 0⟩

/-- `addend` holds the 64 bits of a signed number. -/
structure RelaEntry where
  offset : Nat
  info : Nat
  addend : Nat
  deriving DecidableEq

def relaEntry : Codec RelaEntry where
  widths := [8, 8, 8]
  values e := [e.offset, e.info, e.addend]
  ofValues
    | [offset, info, addend] => some { offset, info, addend }
    | _ => none
  length_values _ := rfl
  ofValues_values _ := rfl

/-! ## Values that fit -/

theorem fits_fileHeader {h : FileHeader}
    (htype : h.type < 2 ^ 16 ∧ h.machine < 2 ^ 16 ∧ h.version < 2 ^ 32)
    (hoffsets : h.entry < 2 ^ 64 ∧ h.phoff < 2 ^ 64 ∧ h.shoff < 2 ^ 64 ∧ h.flags < 2 ^ 32)
    (hsizes : h.ehsize < 2 ^ 16 ∧ h.phentsize < 2 ^ 16 ∧ h.phnum < 2 ^ 16 ∧ h.shentsize < 2 ^ 16)
    (hcounts : h.shnum < 2 ^ 16 ∧ h.shstrndx < 2 ^ 16) : fileHeader.Fits h := by
  simp only [Codec.Fits, fileHeader, List.zip_cons_cons, List.zip_nil_right, List.forall_mem_cons,
    List.not_mem_nil, false_implies, implies_true, and_true]
  omega

theorem fits_sectionHeader {h : SectionHeader}
    (hname : h.name < 2 ^ 32 ∧ h.type < 2 ^ 32 ∧ h.flags < 2 ^ 64 ∧ h.addr < 2 ^ 64)
    (hrange : h.offset < 2 ^ 64 ∧ h.size < 2 ^ 64) (hlink : h.link < 2 ^ 32 ∧ h.info < 2 ^ 32)
    (halign : h.addralign < 2 ^ 64 ∧ h.entsize < 2 ^ 64) : sectionHeader.Fits h := by
  simp only [Codec.Fits, sectionHeader, List.zip_cons_cons, List.zip_nil_right,
    List.forall_mem_cons, List.not_mem_nil, false_implies, implies_true, and_true]
  omega

theorem fits_symEntry {e : SymEntry}
    (hname : e.name < 2 ^ 32 ∧ e.info < 2 ^ 8 ∧ e.other < 2 ^ 8 ∧ e.shndx < 2 ^ 16)
    (hvalue : e.value < 2 ^ 64 ∧ e.size < 2 ^ 64) : symEntry.Fits e := by
  simp only [Codec.Fits, symEntry, List.zip_cons_cons, List.zip_nil_right, List.forall_mem_cons,
    List.not_mem_nil, false_implies, implies_true, and_true]
  omega

theorem fits_relaEntry {e : RelaEntry}
    (h : e.offset < 2 ^ 64 ∧ e.info < 2 ^ 64 ∧ e.addend < 2 ^ 64) : relaEntry.Fits e := by
  simp only [Codec.Fits, relaEntry, List.zip_cons_cons, List.zip_nil_right, List.forall_mem_cons,
    List.not_mem_nil, false_implies, implies_true, and_true]
  omega

/-! ## Reading the sections -/

def readFileHeader (file : List UInt8) : Option FileHeader := do
  let id ← sliceAt file 0 16
  let h ← fileHeader.decode (← sliceAt file 16 48)
  if id = ident ∧ h.type = typeRel ∧ h.ehsize = 64 ∧ h.shentsize = 64 then some h else none

def readSectionHeaders (file : List UInt8) : Option (FileHeader × List SectionHeader) := do
  let h ← readFileHeader file
  let headers ← sectionHeader.readTable h.shnum (← sliceAt file h.shoff (h.shnum * 64))
  return (h, headers)

/-- A `NOBITS` section is all zeros and has no bytes in the file. -/
def sectionContent (file : List UInt8) (h : SectionHeader) : Option (List UInt8) :=
  if h.type = typeNobits then some (List.replicate h.size 0) else sliceAt file h.offset h.size

structure LoadedSection where
  name : List UInt8
  header : SectionHeader
  content : List UInt8

def loadSection (file names : List UInt8) (h : SectionHeader) : Option LoadedSection := do
  let name ← stringAt names h.name
  let content ← sectionContent file h
  return ⟨name, h, content⟩

def readSections (file : List UInt8) : Option (List LoadedSection) := do
  let (h, headers) ← readSectionHeaders file
  let names ← sectionContent file (← headers[h.shstrndx]?)
  headers.mapM (loadSection file names)

/-! ## Reading the object -/

/-- A section of the program's image. -/
structure SectionView where
  name : List UInt8
  type : Nat
  flags : Nat
  align : Nat
  content : List UInt8
  deriving DecidableEq

/-- A symbol; without a section it is undefined. -/
structure SymbolView where
  name : List UInt8
  sectionName : Option (List UInt8)
  value : Nat
  size : Nat
  binding : Nat
  type : Nat
  deriving DecidableEq

structure RelocView where
  offset : Nat
  symbol : List UInt8
  type : Nat
  addend : Int
  deriving DecidableEq

structure ObjectView where
  machine : Nat
  sections : List SectionView
  symbols : List SymbolView
  firstGlobal : Nat
  relocs : List (List UInt8 × List RelocView)
  deriving DecidableEq

def LoadedSection.view (s : LoadedSection) : SectionView :=
  ⟨s.name, s.header.type, s.header.flags, s.header.addralign, s.content⟩

/-- The name of the section that a symbol is in, none for an undefined one. -/
def sectionNameAt (sections : List LoadedSection) (shndx : Nat) : Option (Option (List UInt8)) :=
  if shndx = 0 then some none else (sections[shndx]?).map fun s => some s.name

def readSymbol (sections : List LoadedSection) (strings : List UInt8) (e : SymEntry) :
    Option SymbolView := do
  let name ← stringAt strings e.name
  let sectionName ← sectionNameAt sections e.shndx
  return ⟨name, sectionName, e.value, e.size, e.info / 16, e.info % 16⟩

/-- The symbols of a symbol table, less the reserved one. -/
def readSymbols (sections : List LoadedSection) (symtab : LoadedSection) :
    Option (List SymbolView) := do
  let strings ← sections[symtab.header.link]?
  let entries ← symEntry.readTable (symtab.content.length / 24) symtab.content
  if symtab.header.type = typeSymtab ∧ strings.header.type = typeStrtab ∧
      entries.head? = some SymEntry.null then
    entries.tail.mapM (readSymbol sections strings.content)
  else none

/-- The symbol's index is the upper half of `info`; symbol 0 is reserved. -/
def readReloc (symbols : List SymbolView) (e : RelaEntry) : Option RelocView := do
  let symbol ← if e.info / 2 ^ 32 = 0 then none else symbols[e.info / 2 ^ 32 - 1]?
  return ⟨e.offset, symbol.name, e.info % 2 ^ 32, toSigned 64 e.addend⟩

/-- A relocation section: the name of the section it is for, and its entries. -/
def readRelocs (sections : List LoadedSection) (s : LoadedSection) :
    Option (List UInt8 × List RelocView) := do
  let target ← sections[s.header.info]?
  let symbols ← readSymbols sections (← sections[s.header.link]?)
  let entries ← relaEntry.readTable (s.content.length / 24) s.content
  let relocs ← entries.mapM (readReloc symbols)
  return (target.name, relocs)

def readObject (file : List UInt8) : Option ObjectView := do
  let h ← readFileHeader file
  let sections ← readSections file
  let symtab ← sections.find? (·.header.type = typeSymtab)
  let symbols ← readSymbols sections symtab
  let relocs ← (sections.filter (·.header.type = typeRela)).mapM (readRelocs sections)
  return { machine := h.machine
           sections := (sections.filter (·.header.flags &&& flagAlloc ≠ 0)).map LoadedSection.view
           symbols
           firstGlobal := symtab.header.info
           relocs }

/-! ## Well-formed files -/

/-- Ranges of a file, as an offset and a length each, without a common byte. -/
def Apart (a b : Nat × Nat) : Prop := a.1 + a.2 ≤ b.1 ∨ b.1 + b.2 ≤ a.1

theorem Apart.symm {a b : Nat × Nat} (h : Apart a b) : Apart b a := Or.symm h

/-- The section has bytes in the file. -/
def SectionHeader.InFile (h : SectionHeader) : Prop := h.type ≠ typeNull ∧ h.type ≠ typeNobits

instance (h : SectionHeader) : Decidable h.InFile := inferInstanceAs (Decidable (_ ∧ _))

/-- The part of the file that a section takes up. -/
def SectionHeader.range (h : SectionHeader) : Nat × Nat := (h.offset, h.size)

/-- The file header, the table of section headers and the sections have parts
    of the file to themselves, and every section is aligned as it asks to be. -/
structure WellFormed (file : List UInt8) (h : FileHeader) (headers : List SectionHeader) :
    Prop where
  disjoint : ((0, 64) :: (h.shoff, headers.length * 64) ::
    (headers.filter fun s => s.InFile).map SectionHeader.range).Pairwise Apart
  inside : h.shoff + headers.length * 64 ≤ file.length ∧
    ∀ s ∈ headers, s.InFile → s.offset + s.size ≤ file.length
  aligned : 8 ∣ h.shoff ∧ ∀ s ∈ headers, s.addralign ∣ s.offset

end Crabbit.Lib.Elf64
