/-
  Crabbit.Bpgo.Walk

  The backward walk over a trace, and what it conserves. Each pass, from the
  last, hands its output's profile to its input: a function the pass did not
  change keeps its profile as is, a changed one goes through the pass's
  backward pass. A function stops where a pass changed it and has no backward
  pass; the others go on.

  The total of a function's costs is the same at every snapshot the walk
  reaches it in, as long as no step drops costs (`FunctionKept`). A step drops
  costs where a handler charges an op to the function, or to the owners of the
  pass's own code: such a charge reads `cycles` and leaves what earlier steps
  had put on the op as `regalloc.cycles` behind.
-/

import Crabbit.Bpgo.Backward
import Mathlib.Data.List.Chain

namespace Crabbit.Bpgo

/-! ## Traces -/

/-- A snapshot of a trace: the pass it was taken after, and its functions in
    the order of the module, if its text parses. -/
structure Snapshot where
  label : String
  functions : Except String (List (String × Func))

/-- The functions of the snapshots that parse. -/
def Snapshot.funcs (snapshot : Snapshot) : List Func :=
  match snapshot.functions with
  | .ok functions => functions.map Prod.snd
  | .error _ => []

/-- A trace. Functions of the same text parse to the same shape, so their ops
    correspond one to one. -/
structure Trace where
  snapshots : List Snapshot
  sameShape : ∀ s ∈ snapshots, ∀ t ∈ snapshots, ∀ f ∈ s.funcs, ∀ g ∈ t.funcs,
    f.text = g.text → f.opsUnder.length = g.opsUnder.length

/-- The function of a symbol; of several, the last one. -/
def functionOf (functions : List (String × Func)) (symbol : String) : Option Func :=
  functions.reverse.lookup symbol

/-- The backward passes known to a walk, by forward pass name. -/
abbrev BackwardPasses := String → Option BackwardPass

/-- Where a function's profile stops. -/
structure Stop where
  reached : Nat
  pass : Option String
  reason : String
deriving DecidableEq

/-! ## One step back -/

/-- Copy the profile of `output` onto `input`, which has the same shape. -/
def copy (input output : Func) (pout P : Profile) : Profile :=
  (input.opsUnder.zip output.opsUnder).foldl (fun P io =>
    match pout io.2 with
    | none => P
    | some p => P.addAll io.1 p 1) P

def evenOutExecutions (func : Func) (P : Profile) : Profile :=
  func.blocks.foldl (fun P block => P.evenOutBlock block.2) P

/-- What belongs to the function as a whole stays with it. -/
def keepOwn (input output : Func) (pout P : Profile) : Profile :=
  match pout output.self with
  | none => P
  | some own => P.addAll input.self own 1

/-- One function one pass back: its profile on the input, or why it stops. -/
def functionBack (passes : BackwardPasses) (pass : String) (input output : Func)
    (pout : Profile) : Except String Profile :=
  if input.text = output.text then .ok (copy input output pout input.carried)
  else
    match passes pass with
    | none => .error (pass ++ " changed the function and has no backward pass")
    | some backward =>
        .ok (evenOutExecutions input
          (backward.run input output pout (keepOwn input output pout input.carried)))

/-- A snapshot with the profiles on its functions, and the functions the walk
    has reached in it. -/
structure Level where
  label : String
  functions : List (String × Func)
  profile : String → Profile
  live : List String

/-- A live function one pass back. -/
def symbolBack (passes : BackwardPasses) (out : Level) (ins : List (String × Func))
    (symbol : String) : Except String Profile :=
  match functionOf out.functions symbol, functionOf ins symbol with
  | some output, some input =>
      functionBack passes out.label input output (out.profile symbol)
  | _, _ => .error (out.label ++ " created the function")

/-- The profile a function of the input ends up with. -/
def profileBack (passes : BackwardPasses) (out : Level) (ins : List (String × Func))
    (symbol : String) : Profile :=
  let carried := (functionOf ins symbol).elim (fun _ => none) Func.carried
  if symbol ∈ out.live then (symbolBack passes out ins symbol).toOption.getD carried
  else carried

def stepBack (passes : BackwardPasses) (out : Level) (label : String)
    (ins : List (String × Func)) : Level where
  label := label
  functions := ins
  profile := profileBack passes out ins
  live := out.live.filter fun symbol => (symbolBack passes out ins symbol).isOk

/-- The functions that stop at a step back from the snapshot `index`. -/
def stopsBack (passes : BackwardPasses) (index : Nat) (out : Level)
    (ins : List (String × Func)) : List (String × Stop) :=
  out.live.filterMap fun symbol =>
    match symbolBack passes out ins symbol with
    | .ok _ => none
    | .error reason => some (symbol, ⟨index, some out.label, reason⟩)

/-! ## The walk -/

/-- What a walk produced: the snapshots reached, from the last, and where each
    function's profile stops. -/
structure Walk where
  levels : List Level
  stops : List (String × Stop)

def startStops (index : Nat) (live : List String) : List (String × Stop) :=
  live.map fun symbol => (symbol, ⟨index, none, "reached the start of the pipeline"⟩)

/-- From the snapshot `out` on, over the snapshots before it, the nearest
    first. -/
def walkFrom (passes : BackwardPasses) (out : Level) : List Snapshot → Walk
  | [] => ⟨[out], startStops 0 out.live⟩
  | snapshot :: earlier =>
      let index := earlier.length + 1
      if out.live = [] then ⟨[out], []⟩
      else
        match snapshot.functions with
        | .error e =>
            ⟨[out], out.live.map fun symbol => (symbol,
              ⟨index, some out.label,
                "the IR before " ++ out.label ++ " does not parse: " ++ e⟩)⟩
        | .ok ins =>
            let rest := walkFrom passes (stepBack passes out snapshot.label ins) earlier
            ⟨out :: rest.levels, stopsBack passes index out ins ++ rest.stops⟩

def hasProfile (func : Func) (P : Profile) : Bool :=
  func.opsUnder.any fun op => (P op).isSome

/-- Walk `trace` backward. `measure` puts the measured profile on the functions
    of the last snapshot. -/
def walk (passes : BackwardPasses) (trace : Trace)
    (measure : List (String × Func) → Except String (String → Profile)) :
    Except String Walk :=
  match trace.snapshots.reverse with
  | [] => .error "the trace has no snapshots"
  | last :: earlier =>
      match last.functions with
      | .error e =>
          .error ("the last snapshot (" ++ last.label ++ ") does not parse: " ++ e)
      | .ok functions =>
          match measure functions with
          | .error e => .error e
          | .ok measured =>
              .ok (walkFrom passes
                { label := last.label, functions := functions, profile := measured
                  live := (functions.map Prod.fst).dedup.filter fun symbol =>
                    (functionOf functions symbol).any fun f =>
                      hasProfile f (measured symbol) } earlier)

/-! ## One step keeps the total -/

/-- The costs over a function and its ops at a snapshot. -/
def Level.totalOf (level : Level) (symbol : String) : ℚ :=
  (functionOf level.functions symbol).elim 0 fun f =>
    Profile.total f.opsUnder (level.profile symbol)

/-- A function's profile goes back over a pass whole: the snapshot before the
    pass carries no cost of its own and, where the pass changed the function,
    its backward pass hands on every cost. -/
structure FunctionKept (passes : BackwardPasses) (pass : String) (input output : Func)
    (pout : Profile) : Prop where
  carried : Profile.total input.opsUnder input.carried = 0
  forwards : input.text ≠ output.text → ∀ backward, passes pass = some backward →
    backward.Forwards input output pout

theorem total_copy {input output : Func} {pout : Profile} (P : Profile)
    (h : input.opsUnder.length = output.opsUnder.length) :
    Profile.total input.opsUnder (copy input output pout P) =
      Profile.total input.opsUnder P + Profile.total output.opsUnder pout := by
  have hfold : ∀ (pairs : List (Ptr × Ptr)) (P : Profile),
      (∀ io ∈ pairs, io.1 ∈ input.opsUnder) →
      Profile.total input.opsUnder (pairs.foldl (fun P io =>
        match pout io.2 with
        | none => P
        | some p => P.addAll io.1 p 1) P) =
      Profile.total input.opsUnder P + Profile.total (pairs.map Prod.snd) pout := by
    intro pairs
    induction pairs with
    | nil => simp
    | cons io rest ih =>
        intro P hmem
        rw [List.foldl_cons, ih _ fun io hio => hmem io (List.mem_cons_of_mem _ hio),
          List.map_cons, Profile.total_cons]
        cases hp : pout io.2 with
        | none => simp [Profile.getD, hp]
        | some p =>
            have hget : pout.getD io.2 = p := by rw [Profile.getD, hp]; rfl
            rw [Profile.total_addAll input.nodup_opsUnder p 1 (hmem io List.mem_cons_self),
              hget]
            ring
  rw [copy, hfold _ P fun io hio => (List.of_mem_zip hio).1,
    List.map_snd_zip (le_of_eq h.symm)]

theorem total_evenOutExecutions (func : Func) (P : Profile) :
    Profile.total func.opsUnder (evenOutExecutions func P) =
      Profile.total func.opsUnder P := by
  have hblock : ∀ block ∈ func.blocks, ∀ op ∈ block.2, op ∈ func.opsUnder :=
    fun block hb op hop => Func.mem_opsUnder_of_mem_inner
      (Func.mem_inner_of_mem_blockOps (List.mem_flatMap.mpr ⟨block, hb, hop⟩))
  have hfold : ∀ (blocks : List (Option String × List Ptr)) (P : Profile),
      (∀ block ∈ blocks, block ∈ func.blocks) →
      Profile.total func.opsUnder
        (blocks.foldl (fun P block => P.evenOutBlock block.2) P) =
      Profile.total func.opsUnder P := by
    intro blocks
    induction blocks with
    | nil => exact fun P _ => rfl
    | cons block rest ih =>
        intro P hmem
        rw [List.foldl_cons, ih _ fun b hb => hmem b (List.mem_cons_of_mem _ hb),
          Profile.total_evenOutBlock func.nodup_opsUnder
            (hblock block (hmem block List.mem_cons_self))]
  exact hfold func.blocks P fun block hb => hb

theorem total_keepOwn (input output : Func) (pout P : Profile) :
    Profile.total input.opsUnder (keepOwn input output pout P) =
      Profile.total input.opsUnder P + (pout.getD output.self).cost := by
  unfold keepOwn
  cases hp : pout output.self with
  | none => simp [Profile.getD, hp]
  | some own =>
      show Profile.total input.opsUnder (P.addAll input.self own 1) = _
      rw [Profile.total_addAll input.nodup_opsUnder own 1 List.mem_cons_self, Profile.getD,
        hp, mul_one]
      rfl

/-- The step lemma: what arrives at the input is what the output had. -/
theorem functionBack_total {passes : BackwardPasses} {pass : String}
    {input output : Func} {pout pin : Profile}
    (hshape : input.text = output.text → input.opsUnder.length = output.opsUnder.length)
    (hkept : FunctionKept passes pass input output pout)
    (h : functionBack passes pass input output pout = .ok pin) :
    Profile.total input.opsUnder pin = Profile.total output.opsUnder pout := by
  unfold functionBack at h
  split at h
  · rename_i htext
    obtain rfl := Except.ok.inj h
    rw [total_copy _ (hshape htext), hkept.carried, zero_add]
  · rename_i htext
    cases hpass : passes pass with
    | none =>
        rw [hpass] at h
        exact absurd h (by simp)
    | some backward =>
        rw [hpass] at h
        obtain rfl := Except.ok.inj h
        rw [total_evenOutExecutions,
          BackwardPass.total_run (hkept.forwards htext backward hpass), total_keepOwn,
          hkept.carried, zero_add, Func.opsUnder, Profile.total_cons]

/-! ## Every run keeps the total -/

/-- The step of a walk from one level to the next drops nothing of a function
    it reaches. -/
def StepKept (passes : BackwardPasses) (symbol : String) (out inn : Level) : Prop :=
  symbol ∈ inn.live →
    ∀ output, functionOf out.functions symbol = some output →
      ∀ input, functionOf inn.functions symbol = some input →
        FunctionKept passes out.label input output (out.profile symbol)

/-- The functions of a level and of the snapshots before it have the shape
    their text gives them. -/
structure SameShape (functions : List (String × Func)) (earlier : List Snapshot) :
    Prop where
  here : ∀ s ∈ earlier, ∀ f ∈ s.funcs, ∀ g ∈ functions.map Prod.snd,
    f.text = g.text → f.opsUnder.length = g.opsUnder.length
  before : ∀ s ∈ earlier, ∀ t ∈ earlier, ∀ f ∈ s.funcs, ∀ g ∈ t.funcs,
    f.text = g.text → f.opsUnder.length = g.opsUnder.length

theorem SameShape.step {functions ins : List (String × Func)} {snapshot : Snapshot}
    {earlier : List Snapshot} (h : SameShape functions (snapshot :: earlier))
    (hins : snapshot.functions = .ok ins) : SameShape ins earlier := by
  refine ⟨fun s hs f hf g hg => ?_, fun s hs t ht =>
    h.before s (List.mem_cons_of_mem _ hs) t (List.mem_cons_of_mem _ ht)⟩
  refine h.before s (List.mem_cons_of_mem _ hs) snapshot List.mem_cons_self f hf g ?_
  rw [Snapshot.funcs, hins]
  exact hg

theorem functionOf_mem {functions : List (String × Func)} {symbol : String} {f : Func}
    (h : functionOf functions symbol = some f) : f ∈ functions.map Prod.snd := by
  unfold functionOf at h
  obtain ⟨before, after, hsplit, -⟩ := List.lookup_eq_some_iff.mp h
  have hmem : (symbol, f) ∈ functions := by
    apply List.mem_reverse.mp
    rw [hsplit]
    exact List.mem_append_right before List.mem_cons_self
  exact List.mem_map.mpr ⟨_, hmem, rfl⟩

theorem mem_live_of_stepBack {passes : BackwardPasses} {out : Level} {label : String}
    {ins : List (String × Func)} {symbol : String}
    (h : symbol ∈ (stepBack passes out label ins).live) : symbol ∈ out.live :=
  List.mem_of_mem_filter h

/-- A step of the walk keeps the total of a function it reaches. -/
theorem stepBack_total {passes : BackwardPasses} {out : Level} {label : String}
    {ins : List (String × Func)} {symbol : String}
    (hshape : ∀ f ∈ ins.map Prod.snd, ∀ g ∈ out.functions.map Prod.snd,
      f.text = g.text → f.opsUnder.length = g.opsUnder.length)
    (hkept : StepKept passes symbol out (stepBack passes out label ins))
    (hlive : symbol ∈ (stepBack passes out label ins).live) :
    (stepBack passes out label ins).totalOf symbol = out.totalOf symbol := by
  have hmem := mem_live_of_stepBack hlive
  have hok : (symbolBack passes out ins symbol).isOk = true := (List.mem_filter.mp hlive).2
  cases hback : symbolBack passes out ins symbol with
  | error e =>
      rw [hback] at hok
      exact absurd hok (by simp [Except.isOk, Except.toBool])
  | ok pin =>
      have hprofile : profileBack passes out ins symbol = pin := by
        rw [profileBack, if_pos hmem, hback]
        rfl
      unfold symbolBack at hback
      cases hout : functionOf out.functions symbol with
      | none => simp [hout] at hback
      | some output =>
          cases hin : functionOf ins symbol with
          | none => simp [hout, hin] at hback
          | some input =>
              simp only [hout, hin] at hback
              have htotal := functionBack_total
                (hshape input (functionOf_mem hin) output (functionOf_mem hout))
                (hkept hlive output hout input hin) hback
              simp only [Level.totalOf, stepBack, hin, hout, Option.elim_some, hprofile]
              exact htotal

theorem walkFrom_levels (passes : BackwardPasses) (out : Level) (earlier : List Snapshot) :
    ∃ rest, (walkFrom passes out earlier).levels = out :: rest := by
  cases earlier with
  | nil => exact ⟨[], rfl⟩
  | cons snapshot earlier =>
      unfold walkFrom
      by_cases hlive : out.live = []
      · exact ⟨[], by simp [hlive]⟩
      · rw [if_neg hlive]
        cases hins : snapshot.functions with
        | error e => exact ⟨[], rfl⟩
        | ok ins => exact ⟨_, rfl⟩

/-- The run lemma: by induction over the snapshots still to be reached. -/
theorem walkFrom_total {passes : BackwardPasses} {symbol : String} :
    ∀ {earlier : List Snapshot} {out : Level}, SameShape out.functions earlier →
      (walkFrom passes out earlier).levels.IsChain (StepKept passes symbol) →
      ∀ level ∈ (walkFrom passes out earlier).levels, symbol ∈ level.live →
        symbol ∈ out.live ∧ level.totalOf symbol = out.totalOf symbol
  | [], out, _, _, level, hlevel, hlive => by
      obtain rfl := List.mem_singleton.mp hlevel
      exact ⟨hlive, rfl⟩
  | snapshot :: earlier, out, hshape, hchain, level, hlevel, hlive => by
      unfold walkFrom at hchain hlevel
      by_cases hnone : out.live = []
      · simp only [hnone, if_true, List.mem_singleton] at hlevel
        obtain rfl := hlevel
        exact ⟨hlive, rfl⟩
      · rw [if_neg hnone] at hchain hlevel
        cases hins : snapshot.functions with
        | error e =>
            simp only [hins, List.mem_singleton] at hlevel
            obtain rfl := hlevel
            exact ⟨hlive, rfl⟩
        | ok ins =>
            simp only [hins] at hchain hlevel
            rcases List.mem_cons.mp hlevel with rfl | hlevel
            · exact ⟨hlive, rfl⟩
            · have hrest := walkFrom_total (hshape.step hins) hchain.tail level hlevel hlive
              obtain ⟨rest, hlevels⟩ := walkFrom_levels passes
                (stepBack passes out snapshot.label ins) earlier
              rw [hlevels] at hchain
              have hstep := stepBack_total (fun f hf g hg =>
                  hshape.here snapshot List.mem_cons_self f
                    (by rw [Snapshot.funcs, hins]; exact hf) g hg)
                (List.isChain_cons_cons.mp hchain).1 hrest.1
              exact ⟨mem_live_of_stepBack hrest.1, hrest.2.trans hstep⟩

/-- The walk conserves cost: where no step it takes drops costs of a function,
    the function's total at every snapshot reached is the one measured. -/
theorem walk_total_conserved {passes : BackwardPasses} {trace : Trace}
    {measure : List (String × Func) → Except String (String → Profile)} {result : Walk}
    (h : walk passes trace measure = .ok result) (symbol : String)
    (hkept : result.levels.IsChain (StepKept passes symbol)) :
    ∀ last ∈ result.levels.head?, ∀ level ∈ result.levels, symbol ∈ level.live →
      level.totalOf symbol = last.totalOf symbol := by
  unfold walk at h
  cases hsnapshots : trace.snapshots.reverse with
  | nil =>
      rw [hsnapshots] at h
      exact absurd h (by simp)
  | cons last earlier =>
      simp only [hsnapshots] at h
      have hmem : ∀ s ∈ last :: earlier, s ∈ trace.snapshots := fun s hs =>
        List.mem_reverse.mp (hsnapshots ▸ hs)
      cases hfunctions : last.functions with
      | error e => simp [hfunctions] at h
      | ok functions =>
          simp only [hfunctions] at h
          cases hmeasure : measure functions with
          | error e => simp [hmeasure] at h
          | ok measured =>
              simp only [hmeasure] at h
              obtain rfl := Except.ok.inj h
              have hshape : SameShape functions earlier := by
                refine ⟨fun s hs f hf g hg => ?_, fun s hs t ht =>
                  trace.sameShape s (hmem s (List.mem_cons_of_mem _ hs)) t
                    (hmem t (List.mem_cons_of_mem _ ht))⟩
                refine trace.sameShape s (hmem s (List.mem_cons_of_mem _ hs)) last
                  (hmem last List.mem_cons_self) f hf g ?_
                rw [Snapshot.funcs, hfunctions]
                exact hg
              intro first hfirst level hlevel hlive
              have hrun := walkFrom_total hshape hkept level hlevel hlive
              obtain ⟨rest, hlevels⟩ := walkFrom_levels passes _ earlier
              rw [hlevels, List.head?_cons, Option.mem_some_iff] at hfirst
              obtain rfl := hfirst
              exact hrun.2

/-! ## A spilled op whose creator named no source -/

/-- A function of one block, its ops numbered from 1. -/
def oneBlock (text : String) (ops : List OpAttrs)
    (h : (0 :: ([(some "entry", List.range' 1 ops.length)].flatMap fun block =>
      block.2.flatMap fun op => [op])).Nodup) : Func where
  text := text
  self := 0
  blocks := [(some "entry", List.range' 1 ops.length)]
  attrs := fun op => (ops[op - 1]?).getD { opid := "" }
  nodup := h

/-- The simplifier makes an `add` and names no source for it; the allocator
    spills the machine op selected from it. -/
def spilledTrace : Trace where
  snapshots := [
    ⟨"llvm-op-ids", .ok [("f", oneBlock "ret" [{ opid := "llvm.return", opId := some 0 }]
      (by decide))]⟩,
    ⟨"llvm-simplify", .ok [("f", oneBlock "add ret"
      [{ opid := "llvm.add" }, { opid := "llvm.return", opId := some 0 }] (by decide))]⟩,
    ⟨"aarch64-op-ids", .ok [("f", oneBlock "add ret"
      [{ opid := "llvm.add", opId := some 1 }, { opid := "llvm.return", opId := some 0 }]
      (by decide))]⟩,
    ⟨"llvm-to-aarch64-isel", .ok [("f", oneBlock "add; ret"
      [{ opid := "aarch64.add", derivedFrom := some 1 },
        { opid := "aarch64.ret", derivedFrom := some 0 }] (by decide))]⟩,
    ⟨"aarch64-register-allocate", .ok [("f", oneBlock "ldr; add; ret"
      [{ opid := "aarch64.ldr", derivedFrom := some 1 },
        { opid := "aarch64.add", derivedFrom := some 1 },
        { opid := "aarch64.ret", derivedFrom := some 0 }] (by decide))]⟩]
  sameShape := by decide

/-- 40 cycles in the reload and 60 in the `add`. -/
def spilledMeasure : List (String × Func) → Except String (String → Profile) :=
  fun _ => .ok fun _ op =>
    if op = 1 then some ⟨[(CYCLES, 40)], by decide⟩
    else if op = 2 then some ⟨[(CYCLES, 60)], by decide⟩
    else none

/-- The totals of a function at the snapshots of a walk that reach it. -/
def reachedTotals (symbol : String) (result : Except String Walk) : Option (List ℚ) :=
  result.toOption.map fun w =>
    (w.levels.filter fun level => level.live.contains symbol).map fun level =>
      level.totalOf symbol

/-- The reload's 40 cycles come back to the `add` as `regalloc.cycles`, and
    stay behind where the `add` is charged to the function. -/
theorem walk_drops_spill_cost :
    reachedTotals "f" (walk registered spilledTrace spilledMeasure) =
      some [100, 100, 100, 100, 60] := by
  with_unfolding_all decide

/-- The allocator's own step: the reload's cost goes to the `add`. -/
def allocatedTrace : Trace where
  snapshots := spilledTrace.snapshots.drop 3
  sameShape := by decide

theorem walk_total_conserved_allocated :
    ∃ result, walk registered allocatedTrace spilledMeasure = .ok result ∧
      ∀ last ∈ result.levels.head?, ∀ level ∈ result.levels, "f" ∈ level.live →
        level.totalOf "f" = last.totalOf "f" := by
  refine ⟨_, rfl, walk_total_conserved
    (show walk registered allocatedTrace spilledMeasure = .ok _ from rfl) "f" ?_⟩
  refine List.IsChain.cons_cons ?_ (List.isChain_singleton _)
  rintro - output ⟨⟩ input ⟨⟩
  refine ⟨by with_unfolding_all decide, ?_⟩
  rintro - backward hpass
  have hmachine : backward = .machine (some "regalloc") :=
    (Option.some.inj hpass).symm
  subst hmachine
  exact ⟨by decide, by with_unfolding_all decide⟩

end Crabbit.Bpgo
