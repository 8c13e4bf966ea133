/-
  Crabbit.Llvm.Poison

  The pure operations with their flags, evaluated with poison.

  A flag is a promise about the operands; where it is broken the result is
  poison.  Evaluation is partial: it has no result where LLVM gives an
  operation none (a division by zero, operands of other types).  What floating
  point and pointers are like is left to a `Target`.
-/

import Crabbit.Llvm.Effects

namespace Crabbit.Llvm

open Crabbit.Lib (wrap toSigned)

/-! ## Attributes -/

structure FastmathFlags where
  nnan : Bool := false
  ninf : Bool := false
  nsz : Bool := false
  arcp : Bool := false
  contract : Bool := false
  afn : Bool := false
  reassoc : Bool := false
  deriving DecidableEq

inductive FCmpPredicate where
  | false | oeq | ogt | oge | olt | ole | one | ord
  | ueq | ugt | uge | ult | ule | une | uno | true
  deriving DecidableEq

/-- The attributes that a pure operation is evaluated by.  Each kind of
    operation has some of them; the others are at their defaults. -/
structure Attrs where
  nsw : Bool := false
  nuw : Bool := false
  exact : Bool := false
  disjoint : Bool := false
  nneg : Bool := false
  fastMath : FastmathFlags := {}
  icmp : ICmpPredicate := .eq
  fcmp : FCmpPredicate := .false
  indices : List Nat := []
  deriving DecidableEq

/-- What the attribute tags of a function stand for. -/
abbrev AttrTable := Nat → Attrs

namespace OpId

def intBin? : OpId → Option IntBinOp
  | .add => some .add
  | .sub => some .sub
  | .mul => some .mul
  | .and => some .and
  | .or => some .or
  | .xor => some .xor
  | .shl => some .shl
  | .lshr => some .lshr
  | .ashr => some .ashr
  | .udiv => some .udiv
  | .sdiv => some .sdiv
  | .urem => some .urem
  | .srem => some .srem
  | _ => none

def isFBin : OpId → Bool
  | .fadd | .fsub | .fmul | .fdiv | .frem => true
  | _ => false

def isCast : OpId → Bool
  | .zext | .sext | .trunc | .bitcast | .intToPtr | .ptrToInt => true
  | .fpExt | .fpTrunc | .siToFp | .uiToFp | .fpToSi | .fpToUi => true
  | _ => false

/-- The operations evaluated below: they only compute a value from their
    operands. -/
def isPure (id : OpId) : Bool :=
  id.intBin?.isSome || id.isFBin || id.isCast ||
    id matches .icmp | .fcmp | .fneg | .select | .extractValue | .getElementPtr

end OpId

/-! ## Values -/

inductive PVal where
  | poison
  | int (bits : Nat)
  | float (bits : Nat)
  | pointer (region : Nat) (offset : Int)
  | aggregate (fields : List PVal)

/-- `y` may stand for `x`: it is the same value, wherever `x` is not poison. -/
def PVal.RefinedBy (x y : PVal) : Prop := x = .poison ∨ y = x

/-- The field of an aggregate at a path. -/
def PVal.field : PVal → List Nat → Option PVal
  | x, [] => some x
  | .aggregate fields, i :: path => (fields[i]?).bind fun x => x.field path
  | .poison, _ :: _ => some .poison
  | _, _ :: _ => none

/-- What depends on the target: floating point, by bit patterns, and
    pointers. -/
structure Target where
  fbin : OpId → FastmathFlags → Ty → Nat → Nat → Nat
  fneg : Ty → Nat → Nat
  fcmp : FCmpPredicate → FastmathFlags → Ty → Nat → Nat → Bool
  isNan : Ty → Nat → Bool
  isInf : Ty → Nat → Bool
  /-- The casts to and from floating point, and between pointers and integers. -/
  cast : OpId → Ty → Ty → PVal → Option PVal
  icmpPointer : ICmpPredicate → PVal → PVal → Option Bool
  gepOffset : Ty → List (Nat ⊕ Nat) → Int

/-! ## Integers -/

/-- A sum, difference, product or left shift, from its exact signed and
    unsigned results. -/
def overflowing (a : Attrs) (w : Nat) (s u : Int) : PVal :=
  if (a.nsw ∧ toSigned w (wrap w s) ≠ s) ∨ (a.nuw ∧ (wrap w u : Int) ≠ u) then .poison
  else .int (wrap w s)

/-- The result of a division or right shift that leaves something over or
    not. -/
def unlessInexact (a : Attrs) (rest : Int) (bits : Nat) : PVal :=
  if a.exact ∧ rest ≠ 0 then .poison else .int bits

/-- A binary operation on integers of width `w`; shifting by the width or more
    is poison, and a division without a quotient has no result. -/
def evalIntBin (op : IntBinOp) (a : Attrs) (w x y : Nat) : Option PVal :=
  let sx := toSigned w x
  let sy := toSigned w y
  match op with
  | .add => some (overflowing a w (sx + sy) (x + y))
  | .sub => some (overflowing a w (sx - sy) (x - y))
  | .mul => some (overflowing a w (sx * sy) (x * y))
  | .shl => some (if w ≤ y then .poison else overflowing a w (sx * 2 ^ y) (x * 2 ^ y))
  | .lshr => some (if w ≤ y then .poison else unlessInexact a (x % 2 ^ y : Nat) (x / 2 ^ y))
  | .ashr => some (if w ≤ y then .poison else unlessInexact a (x % 2 ^ y : Nat) (wrap w (sx / 2 ^ y)))
  | .and => some (.int (x &&& y))
  | .or => some (if a.disjoint ∧ x &&& y ≠ 0 then .poison else .int (x ||| y))
  | .xor => some (.int (x ^^^ y))
  | .udiv => if y = 0 then none else some (unlessInexact a (x % y : Nat) (x / y))
  | .urem => if y = 0 then none else some (.int (x % y))
  | .sdiv =>
    if y = 0 ∨ (sx.tdiv sy ≠ toSigned w (wrap w (sx.tdiv sy))) then none
    else some (unlessInexact a (sx.tmod sy) (wrap w (sx.tdiv sy)))
  | .srem =>
    if y = 0 ∨ (sx.tdiv sy ≠ toSigned w (wrap w (sx.tdiv sy))) then none
    else some (.int (wrap w (sx.tmod sy)))

/-- Poison is contagious, but nothing can be divided by it. -/
def evalBinary (op : IntBinOp) (a : Attrs) (w : Nat) : PVal → PVal → Option PVal
  | .int x, .int y => evalIntBin op a w x y
  | .poison, .int y =>
    match op with
    | .udiv | .urem | .sdiv | .srem => if y = 0 then none else some .poison
    | _ => some .poison
  | .int _, .poison | .poison, .poison =>
    match op with
    | .udiv | .urem | .sdiv | .srem => none
    | _ => some .poison
  | _, _ => none

/-! ## Floating point -/

/-- A flag rules the value out. -/
def ruledOut (M : Target) (f : FastmathFlags) (ty : Ty) (bits : Nat) : Bool :=
  (f.nnan && M.isNan ty bits) || (f.ninf && M.isInf ty bits)

def evalFBin (M : Target) (id : OpId) (f : FastmathFlags) (ty : Ty) : PVal → PVal → Option PVal
  | .float x, .float y =>
    let z := M.fbin id f ty x y
    some (if ruledOut M f ty x || ruledOut M f ty y || ruledOut M f ty z then .poison else .float z)
  | .poison, .float _ | .float _, .poison | .poison, .poison => some .poison
  | _, _ => none

def evalFNeg (M : Target) (f : FastmathFlags) (ty : Ty) : PVal → Option PVal
  | .float x =>
    let z := M.fneg ty x
    some (if ruledOut M f ty x || ruledOut M f ty z then .poison else .float z)
  | .poison => some .poison
  | _ => none

/-! ## Comparisons and selections -/

def evalICmpVal (M : Target) (p : ICmpPredicate) (ty : Ty) : PVal → PVal → Option PVal
  | .int x, .int y => ty.intWidth.map fun w => .int (evalICmp p w x y).toNat
  | .poison, _ | _, .poison => some .poison
  | x, y => (M.icmpPointer p x y).map fun b => .int b.toNat

def evalFCmp (M : Target) (p : FCmpPredicate) (f : FastmathFlags) (ty : Ty) :
    PVal → PVal → Option PVal
  | .float x, .float y =>
    some (if ruledOut M f ty x || ruledOut M f ty y then .poison
      else .int (M.fcmp p f ty x y).toNat)
  | .poison, .float _ | .float _, .poison | .poison, .poison => some .poison
  | _, _ => none

def evalSelect (M : Target) (f : FastmathFlags) (ty : Ty) (t e : PVal) : PVal → Option PVal
  | .int c =>
    match if c = 0 then e else t with
    | .float x => some (if ruledOut M f ty x then .poison else .float x)
    | x => some x
  | .poison => some .poison
  | _ => none

/-! ## Casts -/

/-- The outcome of a cast between floating-point types. -/
def flagged (M : Target) (f : FastmathFlags) (src dst : Ty) (x : Nat) : PVal → PVal
  | .float z => if ruledOut M f src x || ruledOut M f dst z then .poison else .float z
  | y => y

/-- A cast from a type to another.  `zext` and `uitofp` promise with `nneg`
    that the sign bit is clear, and the casts between floating-point types
    have fast-math flags. -/
def evalCastVal (M : Target) (id : OpId) (a : Attrs) (src dst : Ty) : PVal → Option PVal
  | .poison => some .poison
  | .int x =>
    match id with
    | .zext => do
      let v ← src.intWidth
      let w ← dst.intWidth
      return if a.nneg ∧ 2 ^ (v - 1) ≤ x then .poison else .int (evalCast .zext v w x)
    | .sext => do
      let v ← src.intWidth
      let w ← dst.intWidth
      return .int (evalCast .sext v w x)
    | .trunc => do
      let v ← src.intWidth
      let w ← dst.intWidth
      return .int (evalCast .trunc v w x)
    | .uiToFp => do
      let v ← src.intWidth
      if a.nneg ∧ 2 ^ (v - 1) ≤ x then some .poison else M.cast id src dst (.int x)
    | _ => M.cast id src dst (.int x)
  | .float x =>
    match id with
    | .fpExt | .fpTrunc => (M.cast id src dst (.float x)).map (flagged M a.fastMath src dst x)
    | _ => M.cast id src dst (.float x)
  | x => M.cast id src dst x

/-! ## Addresses -/

/-- The index values of an address computation; poison if one of them is. -/
def gepIndices : List GepIndex → List PVal → Option (Option (List (Nat ⊕ Nat)))
  | [], [] => some (some [])
  | .constant c :: rest, xs => (gepIndices rest xs).map fun is => is.map (.inl c :: ·)
  | .value _ :: rest, .int x :: xs => (gepIndices rest xs).map fun is => is.map (.inr x :: ·)
  | .value _ :: rest, .poison :: xs => (gepIndices rest xs).map fun _ => none
  | _, _ => none

def evalGep (M : Target) (ty : Ty) (indices : List GepIndex) (base : PVal) (xs : List PVal) :
    Option PVal := do
  let is ← gepIndices indices xs
  match base, is with
  | .pointer region offset, some is => some (.pointer region (offset + M.gepOffset ty is))
  | .pointer _ _, none | .poison, _ => some .poison
  | _, _ => none

/-! ## Operations -/

/-- A pure operation on the values of its operands. -/
def Op.evalPure (T : AttrTable) (M : Target) : Op → List PVal → Option PVal
  | .generic id attrs [r] [a, _] [], [x, y] =>
    match id.intBin? with
    | some op => r.ty.intWidth.bind fun w => evalBinary op (T attrs) w x y
    | none =>
      if id.isFBin then evalFBin M id (T attrs).fastMath r.ty x y
      else if id = .icmp then evalICmpVal M (T attrs).icmp a.ty x y
      else if id = .fcmp then evalFCmp M (T attrs).fcmp (T attrs).fastMath a.ty x y
      else none
  | .generic id attrs [r] [a] [], [x] =>
    if id.isCast then evalCastVal M id (T attrs) a.ty r.ty x
    else if id = .fneg then evalFNeg M (T attrs).fastMath a.ty x
    else if id = .extractValue then x.field (T attrs).indices
    else none
  | .generic .select attrs [_] [_, t, _] [], [x, y, z] =>
    evalSelect M (T attrs).fastMath t.ty y z x
  | .gep _ _ ty indices, x :: xs => evalGep M ty indices x xs
  | .bitcast r arg, [x] => evalCastVal M .bitcast {} arg.ty r.ty x
  | _, _ => none

end Crabbit.Llvm
