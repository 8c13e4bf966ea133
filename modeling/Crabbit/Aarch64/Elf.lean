/-
  Crabbit.Aarch64.Elf

  The ELF64 relocatable-object writer (`elf.rs`): section numbers, symbols,
  relocations, layout and section headers, each assigned by a pass of its own
  over the collected parts.
-/

import Crabbit.Aarch64.ObjectParts
import Crabbit.Lib.Elf64
import Crabbit.Lib.Image

namespace Crabbit.Aarch64

open Crabbit.Lib Crabbit.Lib.Elf64

/-- The bytes of a name (`as_bytes`). -/
def utf8 (name : String) : List UInt8 := name.toUTF8.data.toList

/-! ## Section numbers -/

/-- A row of the section header table. -/
inductive SectionId where
  | text | relaText
  | data (kind : SectionKind) | rela (kind : SectionKind)
  | symtab | strtab | note | shstrtab
  deriving DecidableEq

/-- The rows in the order their numbers are claimed.  Zero-initialized TLS is
    pointer-free, so `.tbss` has no `.rela` twin. -/
def SectionId.all : List SectionId :=
  [.text, .relaText, .data .rodata, .rela .rodata, .data .relro, .rela .relro, .data .data,
    .rela .data, .data .tdata, .rela .tdata, .data .tbss, .symtab, .strtab, .note, .shstrtab]

/-- The data sections with bytes in the file. -/
def SectionKind.inFile : List SectionKind := [.rodata, .relro, .data, .tdata]

namespace ObjectParts

def present (parts : ObjectParts) : SectionId → Bool
  | .data kind => (parts.sections kind).isSome
  | .rela kind => (parts.sections kind).any fun sec => !sec.relocs.isEmpty
  | _ => true

/-- The rows that the object has. -/
def sectionIds (parts : ObjectParts) : List SectionId := SectionId.all.filter parts.present

/-- Row 0 is the null section. -/
def sectionIndex (parts : ObjectParts) (id : SectionId) : Nat := parts.sectionIds.idxOf id + 1

end ObjectParts

/-! ## Symbols -/

def sttObject : Nat := 1
def sttFunc : Nat := 2
def sttTls : Nat := 6

/-- One row of the symbol table, after the text and the data symbols have been
    put together. -/
structure ElfSymbol where
  name : String
  info : Nat
  shndx : Nat
  value : Nat
  size : Nat
  deriving DecidableEq

/-- The row's record; the visibility in `st_other` is the default one. -/
def ElfSymbol.entry (symbol : ElfSymbol) (nameOffset : Nat) : SymEntry :=
  { name := nameOffset
    info := symbol.info
    other := 0
    shndx := symbol.shndx
    value := symbol.value
    size := symbol.size }

/-- The relocations that make an undefined symbol a thread-local one. -/
def FixupKind.isTprel : FixupKind → Bool
  | .tprelHi12 | .tprelLo12Nc => true
  | _ => false

def SectionKind.symbolType : SectionKind → Nat
  | .tdata | .tbss => sttTls
  | _ => sttObject

namespace ObjectParts

def tlsFixupTargets (parts : ObjectParts) : List String :=
  (parts.fixups.filter fun fixup => fixup.kind.isTprel).map BinaryFixup.symbol

/-- The row of a symbol of the text section, or of an undefined one.  The
    writer does not ask whether the symbol is external. -/
def textSymbol (parts : ObjectParts) (symbol : Symbol) : ElfSymbol :=
  { name := symbol.name
    info :=
      ((if symbol.name ∈ parts.weakSymbols then bindWeak else bindGlobal) <<< 4) |||
        if symbol.defined then sttFunc
        else if symbol.name ∈ parts.tlsFixupTargets then sttTls
        else 0
    shndx := if symbol.defined then parts.sectionIndex .text else 0
    value := if symbol.defined then symbol.offset else 0
    size := 0 }

def dataSymbol (parts : ObjectParts) (kind : SectionKind) (symbol : DataSymbol) : ElfSymbol :=
  { name := symbol.name
    info := (bindGlobal <<< 4) ||| kind.symbolType
    shndx := parts.sectionIndex (.data kind)
    value := symbol.offset
    size := symbol.size }

def dataSymbols (parts : ObjectParts) (kind : SectionKind) : List DataSymbol :=
  ((parts.sections kind).map DataSection.symbols).getD []

/-- Text symbols first, then each data section's. -/
def elfSymbols (parts : ObjectParts) : List ElfSymbol :=
  parts.symbols.map parts.textSymbol ++
    SectionKind.all.flatMap fun kind => (parts.dataSymbols kind).map (parts.dataSymbol kind)

def symbolNames (parts : ObjectParts) : List String := parts.elfSymbols.map ElfSymbol.name

/-- `symbol_index`; symbol 0 is the null symbol. -/
def symbolIndex (parts : ObjectParts) (name : String) : Nat := parts.symbolNames.idxOf name + 1

def strtab (parts : ObjectParts) : List UInt8 := stringTable (parts.symbolNames.map utf8)

def symNameOffsets (parts : ObjectParts) : List Nat :=
  stringOffsets 1 (parts.symbolNames.map utf8)

/-- The null entry, then every symbol. -/
def symtab (parts : ObjectParts) : List SymEntry :=
  SymEntry.null :: List.zipWith ElfSymbol.entry parts.elfSymbols parts.symNameOffsets

end ObjectParts

/-! ## Relocations -/

def FixupKind.relocType : FixupKind → Nat
  | .call26 => 283
  | .adrpPage21 => 275
  | .addLo12 => 277
  | .tprelHi12 => 549
  | .tprelLo12Nc => 551

/-- `R_AARCH64_ABS64`. -/
def relocAbs64 : Nat := 257

namespace ObjectParts

def relaEntry (parts : ObjectParts) (offset : Nat) (symbol : String) (type : Nat) (addend : Int) :
    RelaEntry :=
  { offset, info := (parts.symbolIndex symbol <<< 32) ||| type, addend := wrap 64 addend }

def textRela (parts : ObjectParts) : List RelaEntry :=
  parts.fixups.map fun fixup => parts.relaEntry fixup.offset fixup.symbol fixup.kind.relocType 0

def dataRelocs (parts : ObjectParts) (kind : SectionKind) : List DataReloc :=
  ((parts.sections kind).map DataSection.relocs).getD []

def dataRela (parts : ObjectParts) (kind : SectionKind) : List RelaEntry :=
  (parts.dataRelocs kind).map fun reloc =>
    parts.relaEntry reloc.offset reloc.symbol relocAbs64 reloc.addend

/-- The names that relocations are against. -/
def relocatedNames (parts : ObjectParts) : List String :=
  parts.fixups.map BinaryFixup.symbol ++
    SectionKind.inFile.flatMap fun kind => (parts.dataRelocs kind).map DataReloc.symbol

end ObjectParts

/-! ## Contents -/

def SectionId.name : SectionId → String
  | .text => ".text"
  | .relaText => ".rela.text"
  | .data .rodata => ".rodata"
  | .rela .rodata => ".rela.rodata"
  | .data .relro => ".data.rel.ro"
  | .rela .relro => ".rela.data.rel.ro"
  | .data .data => ".data"
  | .rela .data => ".rela.data"
  | .data .tdata => ".tdata"
  | .rela .tdata => ".rela.tdata"
  | .data .tbss => ".tbss"
  | .rela .tbss => ".rela.tbss"
  | .symtab => ".symtab"
  | .strtab => ".strtab"
  | .note => ".note.GNU-stack"
  | .shstrtab => ".shstrtab"

namespace ObjectParts

def shstrtab (parts : ObjectParts) : List UInt8 :=
  stringTable (parts.sectionIds.map fun id => utf8 id.name)

/-- Where the name of a row begins in `.shstrtab`. -/
def nameOffset (parts : ObjectParts) (id : SectionId) : Nat :=
  (stringOffsets 1 (parts.sectionIds.map fun id => utf8 id.name)).getD
    (parts.sectionIds.idxOf id) 0

def dataBytes (parts : ObjectParts) (kind : SectionKind) : List UInt8 :=
  ((parts.sections kind).map DataSection.bytes).getD []

/-- The bytes of a row in the file: none for `.tbss`, which is `NOBITS`. -/
def fileBytes (parts : ObjectParts) : SectionId → List UInt8
  | .text => parts.text
  | .relaText => Elf64.relaEntry.encodeTable parts.textRela
  | .data .tbss => []
  | .data kind => parts.dataBytes kind
  | .rela kind => Elf64.relaEntry.encodeTable (parts.dataRela kind)
  | .symtab => symEntry.encodeTable parts.symtab
  | .strtab => parts.strtab
  | .note => []
  | .shstrtab => parts.shstrtab

/-! ## Layout -/

def dataAlign (parts : ObjectParts) (kind : SectionKind) : Nat :=
  max (((parts.sections kind).map DataSection.align).getD 1) 1

/-- The offset that `place` gives a section, from the cursor. -/
def placeAt (parts : ObjectParts) (cursor : Nat) (kind : SectionKind) : Nat :=
  if (parts.sections kind).isSome then roundUp cursor (parts.dataAlign kind) else cursor

/-- The cursor after `place`. -/
def place (parts : ObjectParts) (cursor : Nat) (kind : SectionKind) : Nat :=
  parts.placeAt cursor kind + (parts.dataBytes kind).length

def textOffset : Nat := roundUp 64 4

/-- The cursor after the text and the given data sections. -/
def cursorAfter (parts : ObjectParts) (kinds : List SectionKind) : Nat :=
  kinds.foldl parts.place (textOffset + parts.text.length)

def relaTextOffset (parts : ObjectParts) : Nat := roundUp (parts.cursorAfter SectionKind.inFile) 8

/-- The end of `.rela.text` and the relocations of the given data sections. -/
def relaAfter (parts : ObjectParts) (kinds : List SectionKind) : Nat :=
  kinds.foldl (fun offset kind => offset + (parts.fileBytes (.rela kind)).length)
    (parts.relaTextOffset + (parts.fileBytes .relaText).length)

def symtabOffset (parts : ObjectParts) : Nat := roundUp (parts.relaAfter SectionKind.inFile) 8

def strtabOffset (parts : ObjectParts) : Nat :=
  parts.symtabOffset + (parts.fileBytes .symtab).length

def shstrtabOffset (parts : ObjectParts) : Nat :=
  parts.strtabOffset + (parts.fileBytes .strtab).length

def shoff (parts : ObjectParts) : Nat :=
  roundUp (parts.shstrtabOffset + (parts.fileBytes .shstrtab).length) 8

/-- Where a row's bytes are.  `.tbss` has an offset by convention only: the
    cursor does not advance past it. -/
def offset (parts : ObjectParts) : SectionId → Nat
  | .text => textOffset
  | .relaText => parts.relaTextOffset
  | .data .rodata => parts.placeAt (parts.cursorAfter []) .rodata
  | .data .relro => parts.placeAt (parts.cursorAfter [.rodata]) .relro
  | .data .data => parts.placeAt (parts.cursorAfter [.rodata, .relro]) .data
  | .data .tdata => parts.placeAt (parts.cursorAfter [.rodata, .relro, .data]) .tdata
  | .data .tbss => parts.placeAt (parts.cursorAfter SectionKind.inFile) .tbss
  | .rela .rodata => parts.relaAfter []
  | .rela .relro => parts.relaAfter [.rodata]
  | .rela .data => parts.relaAfter [.rodata, .relro]
  | .rela .tdata => parts.relaAfter [.rodata, .relro, .data]
  | .rela .tbss => parts.relaAfter SectionKind.inFile
  | .symtab => parts.symtabOffset
  | .strtab => parts.strtabOffset
  | .note => parts.shstrtabOffset
  | .shstrtab => parts.shstrtabOffset

end ObjectParts

/-! ## Section headers -/

def SectionKind.flags : SectionKind → Nat
  | .rodata => flagAlloc
  | .relro | .data => flagAlloc ||| flagWrite
  | .tdata | .tbss => flagAlloc ||| flagWrite ||| flagTls

namespace ObjectParts

/-- A header; `sh_addr` is zero in a relocatable object. -/
def header (parts : ObjectParts) (id : SectionId)
    (type flags size link info addralign entsize : Nat) : SectionHeader :=
  { name := parts.nameOffset id
    type, flags
    addr := 0
    offset := parts.offset id
    size, link, info, addralign, entsize }

def sectionHeader (parts : ObjectParts) (id : SectionId) : SectionHeader :=
  let size := (parts.fileBytes id).length
  match id with
  | .text => parts.header id typeProgbits (flagAlloc ||| flagExec) size 0 0 4 0
  | .relaText =>
    parts.header id typeRela 0 size (parts.sectionIndex .symtab) (parts.sectionIndex .text) 8 24
  | .data .tbss =>
    -- `sh_size` counts toward the thread block though the file has no bytes.
    parts.header id typeNobits SectionKind.tbss.flags (parts.dataBytes .tbss).length 0 0
      (parts.dataAlign .tbss) 0
  | .data kind => parts.header id typeProgbits kind.flags size 0 0 (parts.dataAlign kind) 0
  | .rela kind =>
    parts.header id typeRela 0 size (parts.sectionIndex .symtab) (parts.sectionIndex (.data kind))
      8 24
  | .symtab =>
    -- The null entry is the first and the only local symbol.
    parts.header id typeSymtab 0 size (parts.sectionIndex .strtab) 1 8 24
  | .strtab => parts.header id typeStrtab 0 size 0 0 1 0
  | .note => parts.header id typeProgbits 0 0 0 0 1 0
  | .shstrtab => parts.header id typeStrtab 0 size 0 0 1 0

def nullHeader : SectionHeader := ⟨0, 0, 0, 0, 0, 0, 0, 0, 0, 0⟩

def sectionHeaders (parts : ObjectParts) : List SectionHeader :=
  nullHeader :: parts.sectionIds.map parts.sectionHeader

/-! ## The file -/

def fileHeader (parts : ObjectParts) : FileHeader :=
  { type := typeRel
    machine := 183
    version := 1
    entry := 0
    phoff := 0
    shoff := parts.shoff
    flags := 0
    ehsize := 64
    phentsize := 0
    phnum := 0
    shentsize := 64
    shnum := parts.sectionIds.length + 1
    shstrndx := parts.sectionIndex .shstrtab }

/-- A data section behind what has been written. -/
def writeData (parts : ObjectParts) (out : List UInt8) (kind : SectionKind) : List UInt8 :=
  match parts.sections kind with
  | some sec => padTo 0 out (parts.offset (.data kind)) ++ sec.bytes
  | none => out

def elfImage (parts : ObjectParts) : List UInt8 :=
  let out := ident ++ Elf64.fileHeader.encode parts.fileHeader
  let out := padTo 0 out textOffset ++ parts.text
  let out := SectionKind.inFile.foldl parts.writeData out
  let out := padTo 0 out parts.relaTextOffset ++ parts.fileBytes .relaText
  let out := SectionKind.inFile.foldl (fun out kind => out ++ parts.fileBytes (.rela kind)) out
  let out := padTo 0 out parts.symtabOffset ++ parts.fileBytes .symtab
  let out := out ++ parts.fileBytes .strtab
  let out := out ++ parts.fileBytes .shstrtab
  padTo 0 out parts.shoff ++ Elf64.sectionHeader.encodeTable parts.sectionHeaders

end ObjectParts

/-- `write_elf_object`, which panics on a relocation against a name that has
    no symbol. -/
def writeElfObject (parts : ObjectParts) : Option (List UInt8) :=
  if ∀ name ∈ parts.relocatedNames, name ∈ parts.symbolNames then some parts.elfImage else none

end Crabbit.Aarch64
