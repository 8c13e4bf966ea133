/-
  Crabbit.PlironTrace.Format

  Trace files (`pliron-trace/src/lib.rs`): a JSON header and, for each
  snapshot, a marker line with its label and the printed IR.  Nothing is
  escaped.
-/

import Crabbit.Lib.JsonText
import Crabbit.Lib.Text

namespace Crabbit.PlironTrace

open Crabbit.Lib

structure Snapshot where
  label : List Char
  ir : List Char
  deriving DecidableEq

/-- A trace; what its metadata are does not matter to the format. -/
structure Trace (Meta : Type) where
  metadata : Meta
  snapshots : List Snapshot
  deriving DecidableEq

def PART_MARKER_PREFIX : List Char := "--- crabbit".toList

def PART_MARKER_SUFFIX : List Char := "---".toList

/-- `trim_matches('\n')` -/
def trimNewlines (text : List Char) : List Char := trimMatches (· == '\n') text

/-! ## Metadata -/

/-- What `serde_json` does with metadata. -/
structure SerdeJson (Meta : Type) where
  toString : Meta → List Char
  fromStr : List Char → Except String Meta

/-- A struct is written as an object. -/
def SerdeJson.Documented {Meta : Type} (serde : SerdeJson Meta) : Prop :=
  ∀ metadata, IsObject (serde.toString metadata)

/-! ## Writing -/

/-- The marker line of a label. -/
def marker (label : List Char) : List Char :=
  "--- crabbit ".toList ++ label ++ " ---".toList

def Snapshot.text (dump : Snapshot) : List Char :=
  marker dump.label ++ '\n' :: (trimNewlines dump.ir ++ ['\n', '\n'])

variable {Meta : Type}

/-- `to_text` -/
def Trace.toText (serde : SerdeJson Meta) (trace : Trace Meta) : List Char :=
  serde.toString trace.metadata ++ ['\n', '\n'] ++ trace.snapshots.flatMap Snapshot.text

/-! ## Reading -/

/-- The loop of `find_json_end`, at a position. -/
def scanJson (opening closing : Char) : Nat → Nat → Bool → Bool → List Char → Option Nat
  | _, _, _, _, [] => none
  | idx, depth, inString, escaped, ch :: rest =>
    if inString then
      if escaped then scanJson opening closing (idx + 1) depth true false rest
      else if ch = '\\' then scanJson opening closing (idx + 1) depth true true rest
      else if ch = '"' then scanJson opening closing (idx + 1) depth false false rest
      else scanJson opening closing (idx + 1) depth true false rest
    else if ch = '"' then scanJson opening closing (idx + 1) depth true escaped rest
    else if ch = opening then scanJson opening closing (idx + 1) (depth + 1) false escaped rest
    else if ch = closing then
      if depth - 1 = 0 then some (idx + 1)
      else scanJson opening closing (idx + 1) (depth - 1) false escaped rest
    else scanJson opening closing (idx + 1) depth false escaped rest

/-- `find_json_end`: the length of the value that the text starts with. -/
def findJsonEnd : List Char → Option Nat
  | '{' :: rest => scanJson '{' '}' 1 1 false false rest
  | '[' :: rest => scanJson '[' ']' 1 1 false false rest
  | _ => none

/-- `parse_part_marker` -/
def parsePartMarker (line : List Char) : Option (List Char) :=
  if ¬ PART_MARKER_PREFIX <+: trim line ∨ ¬ PART_MARKER_SUFFIX <:+ trim line then none
  else
    let label := trim (trimEndText PART_MARKER_SUFFIX (trimStartText PART_MARKER_PREFIX (trim line)))
    some (if label = [] then "crabbit".toList else label)

/-- The variables of `parse_parts`. -/
structure Parts where
  parts : List Snapshot
  currentLabel : Option (List Char)
  current : List Char
  deriving DecidableEq

def Parts.start : Parts := ⟨[], none, []⟩

/-- One line. -/
def Parts.read (state : Parts) (line : List Char) : Parts :=
  match parsePartMarker line, state.currentLabel with
  | some label, some previous =>
    ⟨state.parts ++ [⟨previous, trimNewlines state.current⟩], some label, []⟩
  | some label, none => { state with currentLabel := some label }
  | none, some _ => { state with current := state.current ++ (line ++ ['\n']) }
  | none, none =>
    if trim line ≠ [] then
      { state with currentLabel := some "part 1".toList, current := state.current ++ (line ++ ['\n']) }
    else state

/-- The part that is open at the end. -/
def Parts.finish (state : Parts) : List Snapshot :=
  match state.currentLabel with
  | some label => state.parts ++ [⟨label, trimNewlines state.current⟩]
  | none => state.parts

/-- `parse_parts` -/
def parseParts (body : List Char) : List Snapshot :=
  ((lines body).foldl Parts.read Parts.start).finish

/-- `parse_trace` -/
def parseTrace (serde : SerdeJson Meta) (contents : List Char) : Except String (Trace Meta) :=
  match contents.dropWhile isWhiteSpace with
  | [] => .error "empty trace file"
  | src =>
    match findJsonEnd src with
    | none => .error "trace file must start with a JSON metadata value"
    | some metaEnd => (serde.fromStr (src.take metaEnd)).map fun metadata =>
        ⟨metadata, parseParts (trimStartMatches isWhiteSpace (src.drop metaEnd))⟩

end Crabbit.PlironTrace
