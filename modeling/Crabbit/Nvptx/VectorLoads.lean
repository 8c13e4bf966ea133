/-
  Crabbit.Nvptx.VectorLoads

  Vectorised shared loads (`plan_vector_loads` and the vector groups of
  `emit_load`, `nvptx/mod.rs`): the loads of one block from the same folded
  base at consecutive constant offsets become one `ld.shared.v2` or `.v4`, at
  the position of the first of them.

  Loads are bucketed by an era, which is to advance at everything they must
  not be moved across.  It advances at stores and calls; atomic operations,
  fences and inline assembly leave it.
-/

import Crabbit.Nvptx.AddrFold

namespace Crabbit.Nvptx

open Crabbit.Llvm (Value Ty)

/-! ## Blocks -/

/-- The operations of a block, as the planner and memory tell them apart.
    `skipped` is membership of a load in `skip_ops`. -/
inductive BlockOp where
  | load (result address : Value) (skipped : Bool)
  | store (value address : Value)
  | call (results operands : List Value)
  | atomicRmw (results operands : List Value)
  | atomicCmpxchg (results operands : List Value)
  | fence
  | inlineAsm (results operands : List Value)
  /-- Reads and writes registers only. -/
  | pure (results operands : List Value)
  deriving DecidableEq

/-- A write or an opaque effect: loads across it must not merge. -/
def BlockOp.endsEra : BlockOp → Bool
  | .store .. | .call .. => true
  | _ => false

/-- What the emitter knows when it plans a block. -/
structure VecContext where
  addrPlan : Value → Option FoldedAddr
  spaceOf : Value → PtrSpace
  /-- The symbol of a value that is the result of `llvm.addressof`. -/
  addressOf : Value → Option String
  globals : String → Option GlobalSpace

/-- The symbol an address of a module global is the address of. -/
def addressOfSymbol (k : Kernel) (v : Value) : Option String :=
  match definingOp k v with
  | some (.addressOf _ name) => some name
  | _ => none

/-- The context of a body, from the plans of its addresses. -/
def Kernel.vecContext (k : Kernel) (spaces : Value → Option PtrSpace) : VecContext where
  addrPlan := (planAddresses k spaces).plans
  spaceOf v := (spaces v).getD .generic
  addressOf := addressOfSymbol k
  globals := k.globals

/-! ## Register classes -/

inductive RegClass where
  | pred | b32 | b64 | f32 | f64
  deriving DecidableEq

/-- The register class for a type; the others are not supported. -/
def classify : Ty → Option RegClass
  | .int width _ =>
      if width = 1 then some .pred
      else if width = 8 ∨ width = 16 ∨ width = 32 then some .b32
      else if width = 64 then some .b64
      else none
  | .pointer => some .b64
  | .fp32 => some .f32
  | .fp64 => some .f64
  | _ => none

def isAggregate : Ty → Bool
  | .array .. | .struct _ => true
  | _ => false

/-- A value of the type fills its register. -/
def RegClass.fullWidth : RegClass → Nat → Bool
  | .b32, width | .f32, width => width = 32
  | .b64, width | .f64, width => width = 64
  | .pred, _ => false

/-- The bytes of one lane. -/
def RegClass.elem : RegClass → Option Nat
  | .b32 | .f32 => some 4
  | .b64 | .f64 => some 8
  | .pred => none

/-! ## Buckets -/

/-- A member of a bucket: the position of the load in its block, and its
    result. -/
structure Member where
  order : Nat
  result : Value
  deriving DecidableEq

structure BucketKey where
  era : Nat
  root : Value
  terms : List Term
  cls : RegClass
  deriving DecidableEq

/-- Members by ascending offset. -/
abbrev Members := List (Int × Member)

structure Bucket where
  key : BucketKey
  symbol : String
  members : Members
  deriving DecidableEq

/-- A duplicate offset stays a scalar load. -/
def insertMember (offset : Int) (member : Member) : Members → Members
  | [] => [(offset, member)]
  | (o, m) :: members =>
      if offset < o then (offset, member) :: (o, m) :: members
      else if offset = o then (o, m) :: members
      else (o, m) :: insertMember offset member members

/-- The entry of a key, or a new one. -/
def addToBucket (key : BucketKey) (symbol : String) (offset : Int) (member : Member) :
    List Bucket → List Bucket
  | [] => [⟨key, symbol, [(offset, member)]⟩]
  | bucket :: buckets =>
      if bucket.key = key then
        { bucket with members := insertMember offset member bucket.members } :: buckets
      else bucket :: addToBucket key symbol offset member buckets

/-- The class of what a load yields, when it fills a register. -/
def loadClass (ty : Ty) : Option RegClass :=
  if isAggregate ty then none
  else
    match classify ty, widthOf ty with
    | some cls, some width => if cls.fullWidth width then some cls else none
    | _, _ => none

/-- What makes a load a candidate: its plan, class and symbol.  The alignment
    proof needs a base whose declaration is the module's own. -/
def candidate (c : VecContext) (result address : Value) :
    Option (FoldedAddr × RegClass × String) :=
  (c.addrPlan address).bind fun plan =>
    if c.spaceOf address ≠ .shared then none
    else (loadClass result.ty).bind fun cls =>
      (c.addressOf plan.root).bind fun symbol =>
        if c.globals symbol ≠ some .shared then none else some (plan, cls, symbol)

/-- The buckets once a load at position `order` is in its own. -/
def bucketsAfter (c : VecContext) (order era : Nat) (op : BlockOp) (buckets : List Bucket) :
    List Bucket :=
  match op with
  | .load result address false =>
      match candidate c result address with
      | some (plan, cls, symbol) =>
          addToBucket ⟨era, plan.root, plan.terms, cls⟩ symbol plan.offset.toInt ⟨order, result⟩
            buckets
      | none => buckets
  | _ => buckets

/-- The buckets of the operations from position `order` on. -/
def collect (c : VecContext) : List BlockOp → Nat → Nat → List Bucket → List Bucket
  | [], _, _, buckets => buckets
  | op :: ops, order, era, buckets =>
      if op.endsEra then collect c ops (order + 1) (era + 1) buckets
      else collect c ops (order + 1) era (bucketsAfter c order era op buckets)

/-! ## Groups -/

/-- A power of two of bytes a term provably keeps, capped at 16. -/
def Term.align (term : Term) : Nat :=
  if term.scale.abs = 0 then 16 else min (2 ^ min term.scale.abs.ctz.toNat 4) 16

/-- A power-of-two byte alignment the terms provably keep, capped at 16. -/
def dynamicAlign (terms : List Term) : Nat := (terms.map Term.align).foldl min 16

/-- The offsets of the lanes of a group. -/
def laneOffsets (elem : Nat) (start : Int) (lanes : Nat) : List Int :=
  (List.range lanes).map fun (lane : Nat) => start + (lane : Int) * elem

/-- The lanes of a group that starts at an offset: 4, 2 or none. -/
def lanesAt (elem dynAlign : Nat) (offsets taken : List Int) (start : Int) : Nat :=
  if elem = 4 ∧ dynAlign ≥ 16 ∧ start.tmod 16 = 0 ∧
      ∀ off ∈ (laneOffsets elem start 4).tail, off ∈ offsets ∧ off ∉ taken then 4
  else if dynAlign ≥ 2 * elem ∧ start.tmod (2 * elem : Nat) = 0 ∧
      start + elem ∈ offsets ∧ start + elem ∉ taken then 2
  else 0

/-- The starts and lane counts of the groups of one bucket. -/
def groupStarts (elem dynAlign : Nat) (offsets : List Int) :
    List Int → List Int → List (Int × Nat)
  | [], _ => []
  | start :: starts, taken =>
      if start ∈ taken then groupStarts elem dynAlign offsets starts taken
      else
        let lanes := lanesAt elem dynAlign offsets taken start
        if lanes = 0 then groupStarts elem dynAlign offsets starts taken
        else (start, lanes) :: groupStarts elem dynAlign offsets starts
          (taken ++ laneOffsets elem start lanes)

/-- One planned vector load: the folded base, the members in ascending offset
    order, and the position its leader loads all of them at. -/
structure VecGroup where
  plan : FoldedAddr
  parts : Members
  cls : RegClass
  elem : Nat
  symbol : String
  leader : Nat
  deriving DecidableEq

/-- The leader is the member that comes first in the block. -/
def leaderOf : Members → Nat
  | [] => 0
  | (_, m) :: parts => parts.foldl (fun best p => min best p.2.order) m.order

def groupAt (bucket : Bucket) (elem : Nat) (start : Int) (lanes : Nat) : VecGroup :=
  let parts := (laneOffsets elem start lanes).filterMap fun off =>
    (bucket.members.lookup off).map fun member => (off, member)
  { plan := ⟨bucket.key.root, bucket.key.terms, 0⟩
    parts
    cls := bucket.key.cls
    elem
    symbol := bucket.symbol
    leader := leaderOf parts }

def bucketGroups (bucket : Bucket) : List VecGroup :=
  match bucket.key.cls.elem with
  | none => []
  | some elem =>
      let offsets := bucket.members.map Prod.fst
      (groupStarts elem (dynamicAlign bucket.key.terms) offsets offsets []).map fun p =>
        groupAt bucket elem p.1 p.2

/-- The vector loads of a block. -/
def planVectorLoads (c : VecContext) (ops : List BlockOp) : List VecGroup :=
  (collect c ops 0 0 []).flatMap bucketGroups

/-! ## Alignment of declarations -/

/-- The bytes of a group. -/
def VecGroup.bytes (g : VecGroup) : Nat := g.parts.length * g.elem

/-- `align_raises`: what the groups of a function's blocks, or of a module's,
    demand of the declaration of a symbol. -/
def alignRaise (groups : List VecGroup) (symbol : String) : Nat :=
  ((groups.filter fun g => g.symbol = symbol).map VecGroup.bytes).foldl max 1

/-- A shared global, with the alignments its initializer and the
    `cuda_oxide_global_alignment` attribute ask for. -/
structure SharedGlobal where
  align : Nat
  cudaAlign : Nat
  align_pow : ∃ n, max align 1 = 2 ^ n
  cudaAlign_pow : ∃ n, cudaAlign = 2 ^ n

/-- The alignment `emit_global` declares. -/
def SharedGlobal.declared (g : SharedGlobal) (raise : Nat) : Nat :=
  max (max (max g.align 1) g.cudaAlign) raise

end Crabbit.Nvptx
