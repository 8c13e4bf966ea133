/-
  Crabbit.Ll.Attributes

  The payload attributes of globals and their text (`ll/attributes.rs`): raw
  bytes, and bytes with an alignment, a mutability and relocations.
-/

import Crabbit.Lib.Combine
import Mathlib.Tactic.Ring

namespace Crabbit.Ll

open Crabbit.Lib

/-! ## Bytes -/

structure BytesAttr where
  bytes : List UInt8
  deriving DecidableEq

/-- A digit of `{:02x}`. -/
def printHexDigit (n : Nat) : Char :=
  if n < 10 then Char.ofNat ('0'.toNat + n) else Char.ofNat ('a'.toNat + (n - 10))

/-- `{byte:02x}` -/
def printByte (byte : UInt8) : List Char :=
  [printHexDigit (byte.toNat / 16), printHexDigit (byte.toNat % 16)]

def BytesAttr.display (attr : BytesAttr) : List Char :=
  "0x".toList ++ attr.bytes.flatMap printByte

/-- `char::to_digit(16)` -/
def toDigit16 (ch : Char) : Option Nat :=
  if '0' ≤ ch ∧ ch ≤ '9' then some (ch.toNat - '0'.toNat)
  else if 'a' ≤ ch ∧ ch ≤ 'f' then some (ch.toNat - 'a'.toNat + 10)
  else if 'A' ≤ ch ∧ ch ≤ 'F' then some (ch.toNat - 'A'.toNat + 10)
  else none

/-- `u8::from_str_radix` of two characters: a leading plus is taken. -/
def fromStrRadix16 (high low : Char) : Option UInt8 :=
  if high = '+' then (toDigit16 low).map UInt8.ofNat
  else (toDigit16 high).bind fun h => (toDigit16 low).map fun l => UInt8.ofNat (16 * h + l)

/-- The bytes of an even number of digits. -/
def parsePairs : List Char → Option (List UInt8)
  | high :: low :: digits =>
    (fromStrRadix16 high low).bind fun byte => (parsePairs digits).map (byte :: ·)
  | _ => some []

/-- `BytesAttr::parse_str`, on ASCII text. -/
def BytesAttr.parseStr (text : List Char) : Option BytesAttr :=
  match text with
  | '0' :: 'x' :: digits =>
    if digits.length % 2 ≠ 0 then none else (parsePairs digits).map BytesAttr.mk
  | _ => none

section Parsing

variable (c : Combinators)

/-- A run of letters and digits. -/
def word : Parser (List Char) := c.many1 (c.satisfy Char.isAlphanum)

def invalidBytes (text : List Char) : ParseError :=
  .message ("invalid bytes literal " ++ String.ofList ('\x60' :: text ++ ['\x60']) ++
    ": expected " ++ "\x600x\x60 followed by an even number of hex digits")

def BytesAttr.parse : Parser BytesAttr := fun input =>
  (word c input).bind fun text rest =>
    match BytesAttr.parseStr text with
    | some attr => .peekOk attr rest
    | none => .commitErr (invalidBytes text)

end Parsing

/-! ## Data -/

/-- A pointer slot of an initializer. -/
structure DataReloc where
  offset : UInt64
  symbol : List Char
  addend : Int64
  deriving DecidableEq

/-- The initializer of a global in a data section. -/
structure DataAttr where
  bytes : List UInt8
  align : UInt64
  mutable : Bool
  relocs : List DataReloc
  deriving DecidableEq

def displayU64 (n : UInt64) : List Char := Nat.toDigits 10 n.toNat

def displayI64 (n : Int64) : List Char :=
  if n.toInt < 0 then '-' :: Nat.toDigits 10 n.toInt.natAbs else Nat.toDigits 10 n.toInt.natAbs

def displayBool : Bool → List Char
  | true => "true".toList
  | false => "false".toList

def DataReloc.display (reloc : DataReloc) : List Char :=
  displayU64 reloc.offset ++ ':' :: reloc.symbol ++ ':' :: displayI64 reloc.addend

/-- The relocations, with commas between them. -/
def displayRelocs : List DataReloc → List Char
  | [] => []
  | reloc :: relocs => reloc.display ++ relocs.flatMap fun next => ", ".toList ++ next.display

def DataAttr.display (attr : DataAttr) : List Char :=
  ["align=".toList, displayU64 attr.align, ", mut=".toList, displayBool attr.mutable,
    ", bytes=".toList, (BytesAttr.mk attr.bytes).display, ", relocs=[".toList,
    displayRelocs attr.relocs, "]".toList].flatten

/-- A character of a symbol's name. -/
def isSymbolChar (ch : Char) : Bool := ch.isAlphanum || ch == '_' || ch == '.' || ch == '$'

section Parsing

variable (c : Combinators)

def u64Parser : Parser Nat := c.intParser (2 ^ 64 - 1)

/-- `int_parser::<i64>()`, whose value is not negative. -/
def i64Parser : Parser Nat := c.intParser (2 ^ 63 - 1)

def symbolParser : Parser (List Char) :=
  c.seqWith (c.token ':') (c.many1 (c.satisfy isSymbolChar))

/-- The sign is read apart from the magnitude. -/
def addendParser : Parser (Option Char × Nat) :=
  c.seqWith (c.token ':') (c.seqAnd (c.optional (c.token '-')) (i64Parser c))

def addendOf (parts : Option Char × Nat) : Int64 :=
  if parts.1.isSome then -Int64.ofNat parts.2 else Int64.ofNat parts.2

/-- `parse_data_reloc`: each part is its own run of the parser, and the reply
    says whether the last one consumed input. -/
def parseDataReloc : Parser DataReloc := fun input =>
  (u64Parser c input).andThen fun offset rest =>
    (symbolParser c rest).andThen fun symbol rest =>
      (addendParser c rest).map fun parts => ⟨UInt64.ofNat offset, symbol, addendOf parts⟩

/-- A comma, a field's name and the field. -/
def field {α : Type} (name : String) (p : Parser α) : Parser α :=
  c.seqWith (c.seqSkip (c.spaced (c.token ',')) (c.string name.toList)) p

def relocsParser : Parser (List DataReloc) :=
  c.between (c.spaced (c.token '[')) (c.spaced (c.token ']'))
    (c.sepBy (c.spaced (parseDataReloc c)) (c.spaced (c.token ',')))

def fieldsParser : Parser (Nat × List Char × List Char × List DataReloc) :=
  c.tuple (c.seqWith (c.string "align=".toList) (u64Parser c)) (field c "mut=" (word c))
    (field c "bytes=" (word c)) (field c "relocs=" (relocsParser c))

def invalidMutability (text : List Char) : ParseError :=
  .message ("invalid data mutability " ++ String.ofList ('\x60' :: text ++ ['\x60']) ++
    ": expected \x60true\x60 or \x60false\x60")

def parseMutable (text : List Char) : Option Bool :=
  if text = "true".toList then some true
  else if text = "false".toList then some false
  else none

/-- The attribute of the fields that were read. -/
def dataOf (align : Nat) (mutable bytes : List Char) (relocs : List DataReloc) :
    Parser DataAttr := fun rest =>
  match parseMutable mutable with
  | none => .commitErr (invalidMutability mutable)
  | some isMutable =>
    match BytesAttr.parseStr bytes with
    | none => .commitErr (invalidBytes bytes)
    | some attr => .peekOk ⟨attr.bytes, UInt64.ofNat align, isMutable, relocs⟩ rest

def DataAttr.parse : Parser DataAttr := fun input =>
  (fieldsParser c input).bind fun fields =>
    dataOf fields.1 fields.2.1 fields.2.2.1 fields.2.2.2

end Parsing

end Crabbit.Ll
