/-
  Crabbit.Nvptx.AddrFold

  Address folding of the NVPTX back end (`nvptx/addr.rs`): an address becomes
  `root + Σ widen(term) * scale + offset`, by walking the chains of
  `getelementptr` and reassociating constants out of their indices.

  64-bit arithmetic is peeled unconditionally.  32-bit arithmetic below a
  zero-extension is split only where `range_max` bounds what it adds up.
-/

import Crabbit.Nvptx.Layout
import Crabbit.Nvptx.Spaces

namespace Crabbit.Nvptx

open Crabbit.Llvm (Value Ty GepIndex)

/-! ## Folded addresses -/

/-- How a term's value widens to the 64-bit address register. -/
inductive TermKind where
  | i64
  | zext32
  /-- Sign-extended from `width` bits, as narrow indices are. -/
  | sext (width : Nat)
  deriving DecidableEq

/-- One dynamic contribution to an address: `widen(value) * scale` bytes. -/
structure Term where
  value : Value
  scale : BitVec 64
  kind : TermKind
  deriving DecidableEq

/-- `root + Σ terms + offset` bytes. -/
structure FoldedAddr where
  root : Value
  terms : List Term
  offset : BitVec 64
  deriving DecidableEq

/-- `1 << 30`; larger offsets are not folded into memory operands. -/
def MAX_FOLD_OFFSET : Int := 2 ^ 30

def MAX_TERMS : Nat := 4

/-- Recursion budget for the linear decomposition of one index. -/
def PEEL_DEPTH : Nat := 8

def U32_MAX : Nat := 2 ^ 32 - 1

/-! ## Definitions -/

/-- The operation that defines a value; block arguments have none. -/
def definingOp (k : Kernel) (v : Value) : Option Inst := k.insts.find? fun inst => v ∈ inst.results

/-- The bits and the width of an integer constant. -/
def constOf (k : Kernel) (v : Value) : Option (Nat × Nat) :=
  match definingOp k v with
  | some (.constant _ bits) => (widthOf v.ty).map fun width => (bits % 2 ^ width, width)
  | _ => none

/-- The low `width` bits of a constant, sign-extended. -/
def sextFrom (imm width : Nat) : BitVec 64 :=
  if width = 0 ∨ width ≥ 64 then BitVec.ofNat 64 imm
  else (BitVec.ofNat 64 imm <<< (64 - width)).sshiftRight (64 - width)

/-- What a register-aliasing cast aliases. -/
def aliasOf (k : Kernel) (v : Value) : Option Value :=
  match definingOp k v with
  | some (.cast .bitcast _ operand) | some (.cast .intToPtr _ operand)
  | some (.cast .ptrToInt _ operand) => some operand
  | _ => none

/-- Follow register-aliasing casts, unless one crosses the raw-shared
    representation boundary.  The fuel is for a chain of all operations. -/
def unwrapAliases (k : Kernel) (spaces : Value → Option PtrSpace) : Nat → Value → Value
  | 0, v => v
  | fuel + 1, v =>
      match aliasOf k v with
      | some operand =>
          if (spaces v = some .shared) ↔ (spaces operand = some .shared) then
            unwrapAliases k spaces fuel operand
          else v
      | none => v

/-! ## Ranges -/

/-- Memoized unsigned upper bounds; the inner `none` is unbounded. -/
abbrev RangeMemo := Value → Option (Option Nat)

/-- The hardware limits of the launch geometry. -/
def sregMax : Sreg → Option Nat
  | .tidX | .tidY => some 1023
  | .tidZ => some 63
  | .ntidX | .ntidY => some 1024
  | .ntidZ => some 64
  | .ctaidY | .ctaidZ => some 65534
  | .nctaidY | .nctaidZ => some 65535
  | .laneid => some 31
  | .warpSz => some 32
  | .ctaidX | .nctaidX => none

/-- How the bound of a value is computed, from those of none, one or two of
    its operands. -/
inductive RangeRule where
  | known (bound : Option Nat)
  | one (operand : Value) (f : Option Nat → Option Nat)
  | two (a b : Value) (f : Nat → Nat → Nat)

/-- Bounds are only meaningful for 32-bit wrap proofs. -/
def capBound (bound : Nat) : Option Nat := if bound > U32_MAX then none else some bound

def andBound : Option Nat → Option Nat → Option Nat
  | some a, some b => some (min a b)
  | some a, none => some a
  | none, some b => some b
  | none, none => none

/-- The cases of `range_max_inner`.  The checked operations on bounds do not
    overflow, bounds being at most `U32_MAX`. -/
def rangeRule (k : Kernel) (v : Value) : RangeRule :=
  match constOf k v with
  | some (imm, width) => .known (if width > 32 then none else some (imm % 2 ^ 32))
  | none =>
      match definingOp k v with
      | some (.call _ callee _) => .known ((sregForCallee (canonicalName callee)).bind sregMax)
      | some (.bin .add _ a b) => .two a b fun x y => x + y
      | some (.bin .mul _ a b) => .two a b fun x y => x * y
      | some (.bin .shl _ a b) =>
          match constOf k b with
          | some (imm, _) =>
              if imm ≥ 32 then .known none
              else .one a fun bound => bound.bind fun x => capBound (x * 2 ^ imm)
          | none => .known none
      | some (.bin .lshr _ a b) =>
          match constOf k b with
          | some (imm, _) =>
              if imm ≥ 32 then .known none
              else .one a fun bound => bound.bind fun x => capBound (x / 2 ^ imm)
          | none => .known none
      -- `and(x, c) ≤ c` even when `x` is unbounded.
      | some (.bin .and _ a b) =>
          .one a fun bound =>
            (andBound bound ((constOf k b).map fun c => c.1 % 2 ^ 32)).bind capBound
      | some (.select _ _ a b) => .two a b max
      | some (.zext _ inner) =>
          match widthOf inner.ty with
          | some width =>
              if width > 32 then .known none
              else .one inner fun bound =>
                capBound (min (bound.getD (2 ^ width - 1)) (2 ^ width - 1))
          | none => .known none
      -- Truncation preserves the bound only when it provably fits.
      | some (.trunc _ inner) =>
          match widthOf v.ty with
          | some width =>
              .one inner fun bound => bound.bind fun x =>
                if width ≥ 64 ∨ x < 2 ^ width then capBound x else none
          | none => .known none
      | _ => .known none

/-- Evaluate a rule, asking for the bounds it needs in order. -/
def RangeRule.eval (ask : Value → RangeMemo → Option Nat × RangeMemo) (memo : RangeMemo) :
    RangeRule → Option Nat × RangeMemo
  | .known bound => (bound, memo)
  | .one operand f => (f (ask operand memo).1, (ask operand memo).2)
  | .two a b f =>
      match ask a memo with
      | (none, memo) => (none, memo)
      | (some x, memo) => ((ask b memo).1.bind fun y => capBound (f x y), (ask b memo).2)

/-- `range_max`: a bound of a value.  A value that is asked for again finds
    its entry, so the fuel is for one nested call for each operation. -/
def rangeMax (k : Kernel) : Nat → Value → RangeMemo → Option Nat × RangeMemo
  | 0, _, memo => (none, memo)
  | fuel + 1, v, memo =>
      match memo v with
      | some cached => (cached, memo)
      | none =>
          -- Cycle guard: seed the memo defensively.
          let result := (rangeRule k v).eval (rangeMax k fuel) (Function.update memo v (some none))
          (result.1, Function.update result.2 v (some result.1))

/-- `range_max` with fuel for the kernel. -/
def rangeMaxOf (k : Kernel) : Value → RangeMemo → Option Nat × RangeMemo :=
  rangeMax k (k.insts.length + 1)

/-! ## Decomposition -/

/-- The terms so far, and the memo of the folder. -/
structure Spine where
  terms : List Term
  memo : RangeMemo

def Spine.push (s : Spine) (value : Value) (scale : BitVec 64) (kind : TermKind) : Spine :=
  { s with terms := s.terms ++ [⟨value, scale, kind⟩] }

/-- How a 32-bit value may be split. -/
inductive Split where
  | opaqueTerm
  | sum (a b : Value)
  /-- Multiplication by a constant, also as a shift. -/
  | scaled (other : Value) (factor : Nat)

def splitRule (k : Kernel) (v : Value) : Split :=
  match definingOp k v with
  | some (.bin .add _ a b) => .sum a b
  | some (.bin .mul _ a b) =>
      match constOf k b, constOf k a with
      | some (imm, _), _ => .scaled a (imm % 2 ^ 32)
      | none, some (imm, _) => .scaled b (imm % 2 ^ 32)
      | none, none => .opaqueTerm
  | some (.bin .shl _ a b) =>
      match constOf k b with
      | some (imm, _) => if imm ≥ 32 then .opaqueTerm else .scaled a (2 ^ imm)
      | none => .opaqueTerm
  | _ => .opaqueTerm

/-- Decompose a 32-bit unsigned expression under a `zext` to 64 bits; returns
    its constant contribution. -/
def decomposeZext32 (k : Kernel) : Nat → Value → BitVec 64 → Spine → BitVec 64 × Spine
  | depth, v, scale, s =>
      if scale = 0 then (0, s)
      else
        match constOf k v with
        | some (imm, _) => (BitVec.ofNat 64 (imm % 2 ^ 32) * scale, s)
        | none =>
            match depth, splitRule k v with
            | depth + 1, .sum a b =>
                let boundA := rangeMaxOf k a s.memo
                let boundB := rangeMaxOf k b boundA.2
                let s : Spine := { s with memo := boundB.2 }
                match boundA.1, boundB.1 with
                | some maxA, some maxB =>
                    if maxA + maxB > U32_MAX then (0, s.push v scale .zext32)
                    else
                      let lhs := decomposeZext32 k depth a scale s
                      let rhs := decomposeZext32 k depth b scale lhs.2
                      (lhs.1 + rhs.1, rhs.2)
                | _, _ => (0, s.push v scale .zext32)
            | depth + 1, .scaled other factor =>
                let bound := rangeMaxOf k other s.memo
                let s : Spine := { s with memo := bound.2 }
                match bound.1 with
                | some maxOther =>
                    if maxOther * factor > U32_MAX then (0, s.push v scale .zext32)
                    else decomposeZext32 k depth other (scale * BitVec.ofNat 64 factor) s
                | none => (0, s.push v scale .zext32)
            | _, _ => (0, s.push v scale .zext32)

/-- One step of the spine of a 64-bit index expression. -/
inductive Peel where
  | stop
  | plus (rest : Value) (addend : BitVec 64)
  | times (rest : Value) (factor : BitVec 64)
  /-- A zero-extension of 32 bits. -/
  | zext32 (inner : Value)
  /-- A zero-extension of fewer. -/
  | narrow (inner : Value)

def peelRule (k : Kernel) (v : Value) : Peel :=
  match definingOp k v with
  | some (.bin .add _ a b) =>
      match constOf k b, constOf k a with
      | some (imm, width), _ => .plus a (sextFrom imm width)
      | none, some (imm, width) => .plus b (sextFrom imm width)
      | none, none => .stop
  | some (.bin .sub _ a b) =>
      match constOf k b with
      | some (imm, width) => .plus a (-sextFrom imm width)
      | none => .stop
  | some (.bin .mul _ a b) =>
      match constOf k b, constOf k a with
      | some (imm, width), _ => .times a (sextFrom imm width)
      | none, some (imm, width) => .times b (sextFrom imm width)
      | none, none => .stop
  | some (.bin .shl _ a b) =>
      match constOf k b with
      | some (imm, _) => if imm < 64 then .times a (1#64 <<< imm) else .stop
      | none => .stop
  | some (.zext _ inner) =>
      match widthOf inner.ty with
      | some width =>
          if width > 32 ∨ width = 1 then .stop
          else if width = 32 then .zext32 inner
          else .narrow inner
      | none => .stop
  | _ => .stop

/-- Peel constants out of a 64-bit index expression along a single spine;
    returns their contribution. -/
def peel64 (k : Kernel) : Nat → Value → BitVec 64 → Spine → BitVec 64 × Spine
  | 0, v, scale, s => (0, s.push v scale .i64)
  | fuel + 1, v, scale, s =>
      if scale = 0 then (0, s)
      else
        match constOf k v with
        | some (imm, width) => (sextFrom imm width * scale, s)
        | none =>
            match peelRule k v with
            | .stop => (0, s.push v scale .i64)
            | .plus rest addend =>
                let tail := peel64 k fuel rest scale s
                (addend * scale + tail.1, tail.2)
            | .times rest factor => peel64 k fuel rest (scale * factor) s
            | .zext32 inner => decomposeZext32 k PEEL_DEPTH inner scale s
            | .narrow inner => (0, s.push inner scale .zext32)

/-! ## One getelementptr -/

/-- What folding a `getelementptr` keeps as it goes. -/
structure Folder where
  spine : Spine
  offset : BitVec 64

/-- Go on where the indices so far were folded. -/
def andThen (r : Bool × Folder) (f : Folder → Bool × Folder) : Bool × Folder :=
  if r.1 then f r.2 else r

/-- One index over elements `stride` bytes apart. -/
def foldStride (k : Kernel) (stride : Nat) (index : GepIndex) (s : Folder) : Bool × Folder :=
  match index with
  | .constant c => (true, { s with offset := s.offset + BitVec.ofNat 64 c * BitVec.ofNat 64 stride })
  | .value v =>
      match widthOf v.ty, constOf k v with
      | none, _ => (false, s)
      | some _, some (imm, width) =>
          (true, { s with offset := s.offset + sextFrom imm width * BitVec.ofNat 64 stride })
      | some width, none =>
          if width = 64 then
            let peeled := peel64 k PEEL_DEPTH v (BitVec.ofNat 64 stride) s.spine
            (true, ⟨peeled.2, s.offset + peeled.1⟩)
          else if width ≤ 32 then
            (true, { s with spine := s.spine.push v (BitVec.ofNat 64 stride) (.sext width) })
          else (false, s)

/-- The field an index names, when it is constant. -/
def fieldOf (k : Kernel) : GepIndex → Option Nat
  | .constant c => some c
  | .value v => (constOf k v).map Prod.fst

/-- The indices after the first, which descend into the type. -/
def foldDescend (k : Kernel) : Ty → List GepIndex → Folder → Bool × Folder
  | _, [], s => (true, s)
  | .array elem _, index :: rest, s =>
      match strideOf elem with
      | some stride => andThen (foldStride k stride index s) (foldDescend k elem rest)
      | none => (false, s)
  | .struct fields, index :: rest, s =>
      match (fieldOf k index).bind fun field => structFieldOffset fields field 0 with
      | some (start, ty) =>
          foldDescend k ty rest { s with offset := s.offset + BitVec.ofNat 64 start }
      | none => (false, s)
  | _, _ :: _, s => (false, s)

def foldIndices (k : Kernel) (srcElemTy : Ty) : List GepIndex → Folder → Bool × Folder
  | [], s => (true, s)
  | index :: rest, s =>
      match strideOf srcElemTy with
      | some stride => andThen (foldStride k stride index s) (foldDescend k srcElemTy rest)
      | none => (false, s)

/-- Merge a term into those of other values or kinds. -/
def mergeTerm : List Term → Term → List Term
  | [], term => [term]
  | m :: merged, term =>
      if m.value = term.value ∧ m.kind = term.kind then
        { m with scale := m.scale + term.scale } :: merged
      else m :: mergeTerm merged term

/-- Merge repeated terms; a zero net scale vanishes. -/
def mergeTerms (terms : List Term) : List Term :=
  (terms.foldl (fun merged term => if term.scale = 0 then merged else mergeTerm merged term)
    []).filter fun term => term.scale ≠ 0

/-- The plans of the GEPs so far, and the memo of the folder. -/
structure AddrPlans where
  plans : Value → Option FoldedAddr
  memo : RangeMemo

/-- Where folding starts: at the base's plan, or at what it aliases. -/
def baseAddr (k : Kernel) (spaces : Value → Option PtrSpace) (plans : Value → Option FoldedAddr)
    (base : Value) : FoldedAddr :=
  (plans base).getD ⟨unwrapAliases k spaces k.insts.length base, [], 0⟩

/-- Fold one GEP into `root + terms + offset`; `none` keeps the eager
    emission. -/
def foldGep (k : Kernel) (spaces : Value → Option PtrSpace) (p : AddrPlans)
    (result base : Value) (srcElemTy : Ty) (indices : List GepIndex) :
    Option FoldedAddr × RangeMemo :=
  let start := baseAddr k spaces p.plans base
  let folded := foldIndices k srcElemTy indices ⟨⟨start.terms, p.memo⟩, start.offset⟩
  let terms := mergeTerms folded.2.spine.terms
  let accepted := folded.1 ∧ ¬ (terms.length > MAX_TERMS ∨
      folded.2.offset.abs.toInt > MAX_FOLD_OFFSET) ∧
    -- A raw-shared fold stays valid only while the whole chain is shared.
    ((spaces start.root = some .shared) ↔ (spaces result = some .shared)) ∧
    ((spaces start.root = some .shared) ↔ (spaces base = some .shared))
  (if accepted then some ⟨start.root, terms, folded.2.offset⟩ else none, folded.2.spine.memo)

/-! ## The plan of a function -/

def planInst (k : Kernel) (spaces : Value → Option PtrSpace) (p : AddrPlans) : Inst → AddrPlans
  | .gep result base srcElemTy indices =>
      let folded := foldGep k spaces p result base srcElemTy indices
      ⟨match folded.1 with
        | some plan => Function.update p.plans result (some plan)
        | none => p.plans, folded.2⟩
  | _ => p

/-- The first pass of `plan_addresses`. -/
def planAddresses (k : Kernel) (spaces : Value → Option PtrSpace) : AddrPlans :=
  k.insts.foldl (planInst k spaces) ⟨fun _ => none, fun _ => none⟩

end Crabbit.Nvptx
