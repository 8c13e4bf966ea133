/-
  Crabbit.Aarch64.ObjectParts

  The container-independent pieces of an emitted module
  (`aarch64_object_lower.rs`): the text section, the laid-out data sections,
  the symbols and the fixups that become relocations.
-/

import Crabbit.Aarch64.Abi
import Crabbit.Aarch64.Encoding
import Crabbit.Lib.Align
import Mathlib.Logic.Function.Basic

namespace Crabbit.Aarch64

open Crabbit.Lib

/-! ## Modules of encoded functions -/

/-- Linkage of a machine-level function symbol. -/
inductive LinkageAttr where
  | external | internal | priv | weak
  deriving DecidableEq

/-- A pointer slot of an initializer: the address of `symbol` plus `addend`. -/
structure DataReloc where
  offset : Nat
  symbol : String
  addend : Int
  deriving DecidableEq

/-- The initializer of a global that lives in a data section.  Alignments are
    powers of two; zero stands for one. -/
structure DataAttr where
  bytes : List UInt8
  align : Nat
  isMutable : Bool
  relocs : List DataReloc
  align_pow : align = 0 ∨ ∃ k, align = 2 ^ k

/-- A global's initializer: absent on a declaration, an `ll.data` attribute,
    or of another kind, which `global_data` does not read. -/
inductive GlobalInit where
  | absent
  | data (init : DataAttr)
  | other

structure Global where
  name : String
  threadLocal : Bool
  init : GlobalInit

/-- An operation of the module's body that the object writer looks at. -/
inductive ModuleItem where
  | func (name : String) (linkage : LinkageAttr) (encoded : List UInt8)
  | global (g : Global)

def ModuleItem.name : ModuleItem → String
  | .func name _ _ => name
  | .global g => g.name

/-- A fully encoded module.  The symbol table keeps names apart. -/
structure ObjectModule where
  items : List ModuleItem
  moduleLiterals : List UInt8
  fixups : List BinaryFixup
  nodup : (items.map ModuleItem.name).Nodup

/-- The object-file symbol for a source-level name. -/
def TargetOs.symbolName : TargetOs → String → String
  | .darwin, name => "_" ++ name
  | .linux, name => name

/-! ## Data sections -/

structure DataSymbol where
  name : String
  offset : Nat
  size : Nat
  deriving DecidableEq

/-- One laid-out data section. -/
structure DataSection where
  align : Nat := 0
  bytes : List UInt8 := []
  symbols : List DataSymbol := []
  relocs : List DataReloc := []
  deriving DecidableEq

/-- The alignment of an initializer, at least one. -/
def DataAttr.alignment (init : DataAttr) : Nat := max init.align 1

namespace DataSection

/-- Where the next initializer of an alignment goes. -/
def place (sec : DataSection) (align : Nat) : Nat := nextMultipleOf sec.bytes.length align

def appendGlobal (sec : DataSection) (name : String) (init : DataAttr) (os : TargetOs) :
    DataSection :=
  let offset := sec.place init.alignment
  { align := max sec.align init.alignment
    bytes := sec.bytes ++ List.replicate (offset - sec.bytes.length) 0 ++ init.bytes
    symbols := sec.symbols ++ [⟨name, offset, init.bytes.length⟩]
    relocs := sec.relocs ++ init.relocs.map fun reloc =>
      ⟨offset + reloc.offset, os.symbolName reloc.symbol, reloc.addend⟩ }

def defines (sec : DataSection) (name : String) : Bool :=
  sec.symbols.any fun symbol => symbol.name == name

end DataSection

/-- The data sections, in the order the writers go through them. -/
inductive SectionKind where
  | rodata | relro | data | tdata | tbss
  deriving DecidableEq

def SectionKind.all : List SectionKind := [.rodata, .relro, .data, .tdata, .tbss]

/-- The section a global's initializer belongs to. -/
def DataAttr.sectionKind (init : DataAttr) (threadLocal : Bool) : SectionKind :=
  if threadLocal then
    if init.relocs.isEmpty && init.bytes.all (· == 0) then .tbss else .tdata
  else if init.isMutable then .data
  else if init.relocs.isEmpty then .rodata
  else .relro

/-! ## Collecting -/

/-- A symbol of the text section, or an undefined one. -/
structure Symbol where
  name : String
  offset : Nat
  external : Bool
  defined : Bool
  deriving DecidableEq

structure ObjectParts where
  text : List UInt8
  symbols : List Symbol
  fixups : List BinaryFixup
  weakSymbols : List String
  sections : SectionKind → Option DataSection

/-- What the walk over the module's body has collected. -/
structure Collected where
  text : List UInt8 := []
  symbols : List Symbol := []
  weakSymbols : List String := []
  sections : SectionKind → DataSection := fun _ => {}

/-- One operation of the body. -/
def Collected.push (os : TargetOs) (c : Collected) : ModuleItem → Collected
  | .func name linkage encoded =>
    { c with
      text := c.text ++ encoded
      symbols :=
        if linkage = .external ∨ linkage = .weak then
          c.symbols ++ [⟨os.symbolName name, c.text.length, true, true⟩]
        else c.symbols
      weakSymbols :=
        if linkage = .weak then c.weakSymbols ++ [os.symbolName name] else c.weakSymbols }
  | .global g =>
    match g.init with
    | .data init =>
      let kind := init.sectionKind g.threadLocal
      { c with
        sections := Function.update c.sections kind
          ((c.sections kind).appendGlobal (os.symbolName g.name) init os) }
    | _ => c

def collectItems (os : TargetOs) (items : List ModuleItem) : Collected :=
  items.foldl (Collected.push os) {}

/-- `ensure_symbol`: an undefined symbol for a relocation target that has no
    symbol yet. -/
def ensureSymbol (sections : SectionKind → DataSection) (symbols : List Symbol) (name : String) :
    List Symbol :=
  if (symbols.any fun existing => existing.name == name) ||
      SectionKind.all.any fun kind => (sections kind).defines name then symbols
  else symbols ++ [⟨name, 0, true, false⟩]

/-- The relocation targets, in the order they are looked at. -/
def relocationTargets (os : TargetOs) (fixups : List BinaryFixup)
    (sections : SectionKind → DataSection) : List String :=
  (fixups.map fun fixup => os.symbolName fixup.symbol) ++
    SectionKind.all.flatMap fun kind => (sections kind).relocs.map DataReloc.symbol

/-- `collect_object_parts`. -/
def collectObjectParts (os : TargetOs) (m : ObjectModule) : ObjectParts :=
  let c := collectItems os m.items
  { text := c.text ++ m.moduleLiterals
    symbols := (relocationTargets os m.fixups c.sections).foldl (ensureSymbol c.sections) c.symbols
    fixups := m.fixups.map fun fixup => { fixup with symbol := os.symbolName fixup.symbol }
    weakSymbols := c.weakSymbols
    sections := fun kind =>
      if (c.sections kind).symbols.isEmpty then none else some (c.sections kind) }

end Crabbit.Aarch64
