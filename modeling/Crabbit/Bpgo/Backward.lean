/-
  Crabbit.Bpgo.Backward

  The backward passes: where each op of a pass's output hands its profile.
  A pass decides that from what the forward pass recorded on the ops and from
  the alignment, never from the profile, so a handler is the list of its
  output ops, each with its route.

  Two kinds of routes hand on `cycles` alone: a charge on the function
  (`functionCost`) and a charge on the owners of a pass's own code
  (`decision`). What another `*.cycles` metric of such an op holds is dropped,
  `total_deliver` says by how much.
-/

import Crabbit.Bpgo.Align
import Mathlib.Data.Rat.Cast.Order

namespace Crabbit.Bpgo

/-! ## Routes -/

/-- Where the profile of one output op goes. -/
inductive Route where
  /-- `add_all` with the whole of it. -/
  | whole (target : Ptr)
  | spread (targets : List Ptr)
  /-- Another instance of each original. -/
  | instances (originals : List Ptr)
  /-- `what.cycles` on the function. -/
  | functionCost (what : String)
  /-- `own.cycles` on the ops the code was stamped from. -/
  | decision (own : String) (owners : List Ptr)

/-- Only `cycles` takes this route. -/
def Route.onlyCycles : Route → Bool
  | .functionCost _ => true
  | .decision _ _ => true
  | _ => false

/-- The ops a route names. -/
def Route.targets (func : Ptr) : Route → List Ptr
  | .whole target => [target]
  | .spread targets => targets
  | .instances originals => originals
  | .functionCost _ => [func]
  | .decision _ owners => owners

/-- The profile `p` of an output op, put on the input along a route. -/
def deliver (func : Ptr) (P : Profile) (p : ProfileAttr) : Route → Profile
  | .whole target => P.addAll target p 1
  | .spread targets => P.spread targets p
  | .instances originals =>
      originals.foldl (fun P original => P.addInstance original p (1 / originals.length)) P
  | .functionCost what =>
      match p.get CYCLES with
      | none => P
      | some cycles => P.add func (what ++ ".cycles") cycles
  | .decision own owners =>
      match p.get CYCLES with
      | none => P
      | some cycles =>
          owners.foldl (fun P owner =>
            P.add owner (own ++ ".cycles") (cycles / owners.length)) P

/-- What a route does not hand on. -/
def Route.dropped (route : Route) (p : ProfileAttr) : ℚ :=
  if route.onlyCycles then p.otherCost else 0

/-- A share for each of `targets`, summed. -/
theorem length_mul_share {targets : List Ptr} (hne : targets ≠ []) (value : ℚ) :
    targets.length * (value / targets.length) = value := by
  have hlen : (targets.length : ℚ) ≠ 0 := by simpa using hne
  field_simp

theorem total_deliver {ops : List Ptr} (hnd : ops.Nodup) {func : Ptr} {P : Profile}
    {p : ProfileAttr} {route : Route} (hne : route.targets func ≠ [])
    (h : ∀ op ∈ route.targets func, op ∈ ops) :
    Profile.total ops (deliver func P p route) =
      Profile.total ops P + (p.cost - route.dropped p) := by
  have hcycles : p.cost - p.otherCost = (p.get CYCLES).getD 0 := by
    rw [p.cost_eq]
    ring
  cases route with
  | whole target =>
      show Profile.total ops (P.addAll target p 1) = _ + (p.cost - 0)
      rw [Profile.total_addAll hnd p 1 (h target (List.mem_singleton.mpr rfl))]
      ring
  | spread targets =>
      show Profile.total ops (P.spread targets p) = _ + (p.cost - 0)
      rw [Profile.total_spread hnd p (show targets ≠ [] from hne) h, sub_zero]
  | instances originals =>
      show Profile.total ops (originals.foldl _ P) = _ + (p.cost - 0)
      rw [Profile.total_foldl_credit _
        (fun P op hop => Profile.total_addInstance hnd (P := P) p _ hop) originals P h]
      have hshare := length_mul_share (show originals ≠ [] from hne) p.cost
      rw [mul_one_div, hshare, sub_zero]
  | functionCost what =>
      show Profile.total ops (deliver func P p (.functionCost what)) =
        _ + (p.cost - p.otherCost)
      rw [hcycles, deliver]
      cases hget : p.get CYCLES with
      | none => simp
      | some cycles =>
          exact Profile.total_add_cost hnd cycles (h func (List.mem_singleton.mpr rfl))
            (isCost_append_cycles what)
  | decision own owners =>
      show Profile.total ops (deliver func P p (.decision own owners)) =
        _ + (p.cost - p.otherCost)
      rw [hcycles, deliver]
      cases hget : p.get CYCLES with
      | none => simp
      | some cycles =>
          show Profile.total ops (owners.foldl _ P) = Profile.total ops P + cycles
          rw [Profile.total_foldl_credit _
            (fun P op hop => Profile.total_add_cost hnd (P := P) _ hop
              (isCost_append_cycles own)) owners P h]
          rw [length_mul_share (show owners ≠ [] from hne) cycles]

/-! ## The machine passes -/

/-- The sources of an op: an explicit derivation first, then the call site it
    was inlined at, then its own id. -/
def OpAttrs.effectiveSources (attrs : OpAttrs) : List Int :=
  match attrs.derivedFromMany, attrs.derivedFrom, attrs.inlinedFrom, attrs.opId with
  | some many, _, _, _ => many
  | none, some single, _, _ => [single]
  | none, none, some callsite, _ => [callsite]
  | none, none, none, some id => [(id : Int)]
  | none, none, none, none => []

def roots.ISEL_ABI : Int := -1
def roots.REGALLOC : Int := -2
def roots.FRAME : Int := -3
def roots.MIDEND : Int := -6

/-- The metric a root's cost goes under, on the function. -/
def rootMetric (root : Int) : String :=
  if root = roots.ISEL_ABI then "abi"
  else if root = roots.REGALLOC then "regalloc"
  else if root = roots.FRAME then "frame"
  else if root = roots.MIDEND then "midend"
  else "unattributed"

def orDash (id : Option Int) : String := (id.map toString).getD "-"

def machineKey (attrs : OpAttrs) : String :=
  attrs.opid ++ "|" ++ orDash attrs.derivedFrom

/-- The ops of the input stamped from `d` that the pass kept. -/
def keptByDerived (input : Func) (deleted : List Ptr) (d : Int) : List Ptr :=
  input.inner.filter fun op => (input.attrs op).derivedFrom == some d && op ∉ deleted

/-- What a created op stands in place of, at the same spot. -/
def machineReplaced (input output : Func) (alignment : Alignment) (op : Ptr) : List Ptr :=
  (alignment.replacedBy op).filter fun old =>
    (output.attrs op).derivedFrom.isNone || (input.attrs old).derivedFrom.isNone ||
      (input.attrs old).derivedFrom == (output.attrs op).derivedFrom

/-- The ops that are still there and that a created op was stamped from. -/
def machineOwners (input output : Func) (alignment : Alignment) (op : Ptr) : List Ptr :=
  (output.attrs op).derivedFrom.elim [] (keptByDerived input alignment.deleted)

def ownersRoute (own : Option String) (owners : List Ptr) : Route :=
  own.elim (.spread owners) fun own => .decision own owners

/-- Where `MachineBackward` sends a created op. -/
def machineCreated (own : Option String) (input output : Func) (alignment : Alignment)
    (op : Ptr) : Route :=
  match (output.attrs op).derivedFrom.filter (· < 0) with
  | some root => .functionCost (rootMetric root)
  | none =>
      if machineReplaced input output alignment op ≠ [] then
        .spread (machineReplaced input output alignment op)
      else if machineOwners input output alignment op ≠ [] then
        ownersRoute own (machineOwners input output alignment op)
      else .functionCost "unattributed"

/-- The backward pass of a machine pass between instruction selection and
    the encoder. -/
def machineRoutes (own : Option String) (input output : Func) : List (Ptr × Route) :=
  let alignment := align machineKey input output
  (alignment.pairs.map fun p => (p.2, Route.whole p.1)) ++
    alignment.created.map fun op => (op, machineCreated own input output alignment op)

/-! ## Instruction selection -/

/-- The input op with an id, which is looked up as a `u32`; of several ops,
    the last one. -/
def byId (input : Func) (id : Int) : Option Ptr :=
  if id < 2 ^ 32 then
    (input.inner.filter fun op => (input.attrs op).opId == some id.toNat).getLast?
  else none

def iselRoute (input output : Func) (op : Ptr) : Route :=
  match (output.attrs op).derivedFrom with
  | some d =>
      if d < 0 then .functionCost (rootMetric d)
      else (byId input d).elim (.functionCost "unattributed") .whole
  | none => .functionCost "unattributed"

def iselRoutes (input output : Func) : List (Ptr × Route) :=
  output.inner.map fun op => (op, iselRoute input output op)

/-! ## The LLVM-level passes -/

def llvmKey (attrs : OpAttrs) : String :=
  match attrs.opId with
  | some id => attrs.opid ++ "|#" ++ toString id ++ "|" ++ orDash attrs.inlinedFrom
  | none => attrs.opid ++ "|" ++ toString attrs.effectiveSources

/-- Two lists of sources have one in common. -/
def meets (a b : List Int) : Bool := a.any b.contains

/-- Two lists of sources are the same set. -/
def sameSources (a b : List Int) : Bool := a.all b.contains && b.all a.contains

/-- The sources a survivor absorbed in this pass, if any. -/
def absorbed (before after : OpAttrs) : Option (List Int) :=
  after.derivedFromMany.filter fun many =>
    !(before.derivedFromMany.elim false fun old => sameSources old many)

/-- Where `LlvmBackward` sends an op found on both sides. -/
def llvmPair (input output : Func) (alignment : Alignment) (p : Ptr × Ptr) : Route :=
  match absorbed (input.attrs p.1) (output.attrs p.2) with
  | some set =>
      .spread (p.1 :: alignment.deleted.filter fun d =>
        (input.attrs d).opid == (output.attrs p.2).opid &&
          meets (input.attrs d).effectiveSources set)
  | none => .whole p.1

/-- The ops of the input that a created op names as its sources, in the four
    tiers: taken out before still there, of the same kind first. -/
def llvmCandidates (input output : Func) (alignment : Alignment) (op : Ptr)
    (gone kind : Bool) : List Ptr :=
  input.inner.filter fun i =>
    alignment.deleted.contains i == gone &&
      (!kind || (input.attrs i).opid == (output.attrs op).opid) &&
      meets (input.attrs i).effectiveSources (output.attrs op).effectiveSources

/-- The ops an unrolled clone is another instance of. -/
def llvmOriginals (input output : Func) (alignment : Alignment) (op : Ptr) : List Ptr :=
  input.inner.filter fun i =>
    !alignment.deleted.contains i && (input.attrs i).opid == (output.attrs op).opid &&
      sameSources (input.attrs i).effectiveSources (output.attrs op).effectiveSources

def llvmReplaced (input output : Func) (alignment : Alignment) (op : Ptr) : List Ptr :=
  (alignment.replacedBy op).filter fun i =>
    (output.attrs op).effectiveSources.isEmpty ||
      meets (input.attrs i).effectiveSources (output.attrs op).effectiveSources

/-- The tiers of candidates: `(gone, kind)`. -/
def tiers : List (Bool × Bool) := [(true, true), (true, false), (false, true), (false, false)]

/-- Where `LlvmBackward` sends a created op. -/
def llvmCreated (clones : Bool) (input output : Func) (alignment : Alignment)
    (op : Ptr) : Route :=
  if clones = true ∧ llvmOriginals input output alignment op ≠ [] then
    .instances (llvmOriginals input output alignment op)
  else if llvmReplaced input output alignment op ≠ [] then
    .spread (llvmReplaced input output alignment op)
  else
    match tiers.find? fun tier =>
        !(llvmCandidates input output alignment op tier.1 tier.2).isEmpty with
    | some tier => .spread (llvmCandidates input output alignment op tier.1 tier.2)
    | none => .functionCost "unattributed"

def llvmRoutes (clones : Bool) (input output : Func) : List (Ptr × Route) :=
  let alignment := align llvmKey input output
  (alignment.pairs.map fun p => (p.2, llvmPair input output alignment p)) ++
    alignment.created.map fun op => (op, llvmCreated clones input output alignment op)

/-! ## Handlers -/

inductive BackwardPass where
  | machine (own : Option String)
  | isel
  | llvm (clones : Bool)

/-- The output ops a backward pass reads, each with its route. -/
def BackwardPass.routes (input output : Func) : BackwardPass → List (Ptr × Route)
  | .machine own => machineRoutes own input output
  | .isel => iselRoutes input output
  | .llvm clones => llvmRoutes clones input output

/-- Spread the profile `pout` on the output back onto the input, which
    carries `P` so far. -/
def BackwardPass.run (pass : BackwardPass) (input output : Func) (pout P : Profile) :
    Profile :=
  (pass.routes input output).foldl (fun P r =>
    match pout r.1 with
    | none => P
    | some p => deliver input.self P p r.2) P

/-! ## What a handler does to the total -/

/-- A route names ops of the input, and at least one. -/
def Route.Names (input : Func) (route : Route) : Prop :=
  route.targets input.self ≠ [] ∧ ∀ op ∈ route.targets input.self, op ∈ input.opsUnder

theorem Route.names_functionCost (input : Func) (what : String) :
    (Route.functionCost what).Names input :=
  ⟨List.cons_ne_nil _ _, fun _ hop => List.mem_singleton.mp hop ▸ List.mem_cons_self⟩

theorem Route.names_whole {input : Func} {op : Ptr} (h : op ∈ input.inner) :
    (Route.whole op).Names input :=
  ⟨List.cons_ne_nil _ _,
    fun _ hop => List.mem_singleton.mp hop ▸ Func.mem_opsUnder_of_mem_inner h⟩

/-- Routes over a list of ops of the input. -/
theorem Route.names_of_inner {input : Func} {route : Route} {targets : List Ptr}
    (htargets : route.targets input.self = targets) (hne : targets ≠ [])
    (h : ∀ op ∈ targets, op ∈ input.inner) : route.Names input := by
  refine ⟨htargets ▸ hne, fun op hop => ?_⟩
  rw [htargets] at hop
  exact Func.mem_opsUnder_of_mem_inner (h op hop)

theorem ownersRoute_names {input : Func} (own : Option String) {owners : List Ptr}
    (hne : owners ≠ []) (h : ∀ op ∈ owners, op ∈ input.inner) :
    (ownersRoute own owners).Names input := by
  cases own with
  | none => exact Route.names_of_inner rfl hne h
  | some own => exact Route.names_of_inner rfl hne h

theorem machineOwners_mem {input output : Func} {alignment : Alignment} {op i : Ptr}
    (h : i ∈ machineOwners input output alignment op) : i ∈ input.inner := by
  unfold machineOwners at h
  cases hd : (output.attrs op).derivedFrom with
  | none =>
      rw [hd] at h
      exact absurd h List.not_mem_nil
  | some d =>
      rw [hd] at h
      exact List.mem_of_mem_filter h

theorem machineCreated_names (own : Option String) (input output : Func) (op : Ptr) :
    (machineCreated own input output (align machineKey input output) op).Names input := by
  unfold machineCreated
  split
  · exact Route.names_functionCost input _
  · split
    · rename_i hne
      exact Route.names_of_inner rfl hne fun i hi =>
        Func.mem_inner_of_mem_blockOps
          (replacedBy_mem machineKey input output (List.mem_of_mem_filter hi))
    · split
      · rename_i hne
        exact ownersRoute_names own hne fun i hi => machineOwners_mem hi
      · exact Route.names_functionCost input _

theorem byId_mem {input : Func} {id : Int} {op : Ptr} (h : byId input id = some op) :
    op ∈ input.inner := by
  unfold byId at h
  split at h
  · exact List.mem_of_mem_filter (List.mem_of_getLast? h)
  · exact absurd h (by simp)

theorem iselRoute_names (input output : Func) (op : Ptr) :
    (iselRoute input output op).Names input := by
  unfold iselRoute
  split
  · rename_i d hd
    split
    · exact Route.names_functionCost input _
    · cases hby : byId input d with
      | none => exact Route.names_functionCost input _
      | some source => exact Route.names_whole (byId_mem hby)
  · exact Route.names_functionCost input _

theorem llvmPair_names (input output : Func) {p : Ptr × Ptr}
    (hp : p ∈ (align llvmKey input output).pairs) :
    (llvmPair input output (align llvmKey input output) p).Names input := by
  have hinput := Func.mem_inner_of_mem_blockOps (align_input_mem llvmKey input output hp)
  unfold llvmPair
  split
  · refine Route.names_of_inner rfl (List.cons_ne_nil _ _) fun i hi => ?_
    rcases List.mem_cons.mp hi with rfl | hi
    · exact hinput
    · exact Func.mem_inner_of_mem_blockOps
        (deleted_mem llvmKey input output (List.mem_of_mem_filter hi))
  · exact Route.names_whole hinput

theorem llvmCreated_names (clones : Bool) (input output : Func) (op : Ptr) :
    (llvmCreated clones input output (align llvmKey input output) op).Names input := by
  unfold llvmCreated
  split
  · rename_i h
    exact Route.names_of_inner rfl h.2 fun i hi => List.mem_of_mem_filter hi
  · split
    · rename_i hne
      exact Route.names_of_inner rfl hne fun i hi =>
        Func.mem_inner_of_mem_blockOps
          (replacedBy_mem llvmKey input output (List.mem_of_mem_filter hi))
    · split
      · rename_i tier htier
        have hne : llvmCandidates input output (align llvmKey input output) op
            tier.1 tier.2 ≠ [] := by
          simpa using List.find?_some htier
        exact Route.names_of_inner rfl hne fun i hi => List.mem_of_mem_filter hi
      · exact Route.names_functionCost input _

theorem BackwardPass.routes_names {pass : BackwardPass} {input output : Func}
    {r : Ptr × Route} (hr : r ∈ pass.routes input output) : r.2.Names input := by
  cases pass with
  | machine own =>
      rcases List.mem_append.mp hr with hr | hr
      · obtain ⟨p, hp, rfl⟩ := List.mem_map.mp hr
        exact Route.names_whole
          (Func.mem_inner_of_mem_blockOps (align_input_mem machineKey input output hp))
      · obtain ⟨op, -, rfl⟩ := List.mem_map.mp hr
        exact machineCreated_names own input output op
  | isel =>
      obtain ⟨op, -, rfl⟩ := List.mem_map.mp hr
      exact iselRoute_names input output op
  | llvm clones =>
      rcases List.mem_append.mp hr with hr | hr
      · obtain ⟨p, hp, rfl⟩ := List.mem_map.mp hr
        exact llvmPair_names input output hp
      · obtain ⟨op, -, rfl⟩ := List.mem_map.mp hr
        exact llvmCreated_names clones input output op

/-- A handler reads every op of the output at most once. -/
theorem BackwardPass.routes_ops (pass : BackwardPass) (input output : Func) :
    ((pass.routes input output).map Prod.fst).Nodup ∧
      (pass.routes input output).map Prod.fst ⊆ output.inner := by
  have haligned : ∀ key, ∀ ops : List Ptr,
      ops = (align key input output).pairs.map Prod.snd ++
        (align key input output).created →
      ops.Nodup ∧ ops ⊆ output.inner := by
    rintro key ops rfl
    have hperm := align_outputs key input output
    exact ⟨hperm.nodup_iff.mpr output.nodup_blockOps,
      fun op hop => Func.mem_inner_of_mem_blockOps (hperm.subset hop)⟩
  cases pass with
  | machine own =>
      apply haligned machineKey
      simp [BackwardPass.routes, machineRoutes, List.map_map, Function.comp_def]
  | isel =>
      have hmap : (BackwardPass.isel.routes input output).map Prod.fst = output.inner := by
        simp [BackwardPass.routes, iselRoutes, List.map_map, Function.comp_def]
      rw [hmap]
      exact ⟨output.nodup_inner, List.Subset.refl _⟩
  | llvm clones =>
      apply haligned llvmKey
      simp [BackwardPass.routes, llvmRoutes, List.map_map, Function.comp_def]

/-- The costs of the routed ops arrive, less what their routes drop. -/
theorem total_foldl_deliver {ops : List Ptr} (hnd : ops.Nodup) (func : Ptr)
    (pout : Profile) :
    ∀ (routes : List (Ptr × Route)) (P : Profile),
      (∀ r ∈ routes, r.2.targets func ≠ [] ∧ ∀ op ∈ r.2.targets func, op ∈ ops) →
      Profile.total ops (routes.foldl (fun P r =>
        match pout r.1 with
        | none => P
        | some p => deliver func P p r.2) P) =
      Profile.total ops P +
        (routes.map fun r => (pout.getD r.1).cost - r.2.dropped (pout.getD r.1)).sum
  | [], P, _ => by simp
  | r :: rest, P, h => by
      rw [List.foldl_cons, List.map_cons, List.sum_cons,
        total_foldl_deliver hnd func pout rest _ fun r hr => h r (List.mem_cons_of_mem _ hr)]
      obtain ⟨hne, hmem⟩ := h r List.mem_cons_self
      cases hp : pout r.1 with
      | none =>
          have hzero : (pout.getD r.1).cost - r.2.dropped (pout.getD r.1) = 0 := by
            rw [Profile.getD, hp]
            simp [Route.dropped, ProfileAttr.otherCost, ProfileAttr.empty,
              ProfileAttr.sumOf, ProfileAttr.cost]
          rw [hzero, zero_add]
      | some p =>
          have hget : pout.getD r.1 = p := by rw [Profile.getD, hp]; rfl
          rw [hget, total_deliver hnd hne hmem]
          ring

/-- What a pass does not hand on: costs on output ops it does not read, and
    costs other than `cycles` on a route of `cycles` alone. -/
structure BackwardPass.Forwards (pass : BackwardPass) (input output : Func)
    (pout : Profile) : Prop where
  read : ∀ op ∈ output.inner, op ∉ (pass.routes input output).map Prod.fst →
    (pout.getD op).cost = 0
  charged : ∀ r ∈ pass.routes input output, r.2.onlyCycles = true →
    (pout.getD r.1).otherCost = 0

theorem BackwardPass.total_run {pass : BackwardPass} {input output : Func}
    {pout : Profile} (h : pass.Forwards input output pout) (P : Profile) :
    Profile.total input.opsUnder (pass.run input output pout P) =
      Profile.total input.opsUnder P + Profile.total output.inner pout := by
  obtain ⟨hnd, hsub⟩ := pass.routes_ops input output
  unfold BackwardPass.run
  rw [total_foldl_deliver input.nodup_opsUnder input.self pout _ P
    fun r hr => BackwardPass.routes_names hr]
  congr 1
  -- No route drops anything, so each op read arrives in full.
  have hroutes : ((pass.routes input output).map fun r =>
      (pout.getD r.1).cost - r.2.dropped (pout.getD r.1)) =
      ((pass.routes input output).map Prod.fst).map fun op => (pout.getD op).cost := by
    rw [List.map_map]
    apply List.map_congr_left
    intro r hr
    by_cases honly : r.2.onlyCycles = true
    · simp [Route.dropped, honly, h.charged r hr honly]
    · simp [Route.dropped, honly]
  have hperm := (perm_append_filter_notMem hnd hsub output.nodup_inner).map
    fun op => (pout.getD op).cost
  have hrest : ((output.inner.filter fun op =>
      op ∉ (pass.routes input output).map Prod.fst).map
        fun op => (pout.getD op).cost).sum = 0 := by
    apply List.sum_eq_zero
    intro x hx
    obtain ⟨op, hop, rfl⟩ := List.mem_map.mp hx
    obtain ⟨hinner, hnot⟩ := List.mem_filter.mp hop
    exact h.read op hinner (of_decide_eq_true hnot)
  rw [hroutes, Profile.total, ← hperm.sum_eq, List.map_append, List.sum_append, hrest,
    add_zero]

/-- The backward passes by the name of the forward pass, as the two `register`
    functions list them. -/
def registered (name : String) : Option BackwardPass :=
  if name = "llvm-to-aarch64-isel" then some .isel
  else if name ∈ ["aarch64-legalize", "aarch64-machine-cfg-cleanup",
      "aarch64-target-opts-pre-ra", "aarch64-blockmap-ids", "aarch64-frame-lower",
      "aarch64-post-ra-opts", "aarch64-block-placement", "aarch64-branch-relax",
      "aarch64-asm-lower", "aarch64-encode"] then some (.machine none)
  else if name = "aarch64-register-allocate" then some (.machine (some "regalloc"))
  else if name ∈ ["llvm-aarch64-linux-abi", "verify-llvm-for-aarch64-linux",
      "llvm-vectorize", "llvm-simplify", "llvm-simplify-cfg", "llvm-sink", "llvm-adce",
      "llvm-global-dse", "llvm-loop-carried-fwd", "llvm-gvn", "llvm-licm",
      "llvm-div-strength-reduce", "mem2reg", "llvm-pin-type-punned-slots", "llvm-sroa",
      "llvm-inline"] then some (.llvm false)
  else if name = "llvm-unroll" then some (.llvm true)
  else none

end Crabbit.Bpgo
