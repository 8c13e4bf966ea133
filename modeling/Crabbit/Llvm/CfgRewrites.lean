/-
  Crabbit.Llvm.CfgRewrites

  Functions that behave alike: the rewritten function executes the same
  operations on the same operands, from every entry.  Here for changes to
  blocks that are never reached, and for a new terminator that branches where
  the old one did.
-/

import Crabbit.Llvm.SimplifyCfg

namespace Crabbit.Llvm

open Crabbit.Lib

namespace Region

/-! ## Well-formed functions -/

/-- What the verifier promises: SSA form with dominance, and types that
    match. -/
structure Wf (A : CfgTable) (g : Region) : Prop extends g.Ssa where
  uses : g.UsesDominated
  /-- Blocks have a terminator. -/
  ended : ∀ b, g.Reached b → (g.block b).ops ≠ []
  /-- Branches pass the arguments their targets have. -/
  typed : ∀ op ∈ g.ops, ∀ t ∈ op.succs,
    t.args.map Value.ty = (g.block t.dest).params.map Value.ty
  /-- Conditions are single bits. -/
  conds : ∀ op ∈ g.ops, ∀ cond t f, op.branch? = some (.condBr cond t f) →
    cond.ty.intWidth = some 1
  /-- Constants have the type of their attribute. -/
  consts : ∀ op ∈ g.ops, ∀ c, op.const? A = some c → ∀ r ∈ op.results,
    r.ty.intWidth = some c.width

/-- From every entry the second function does what the first one does, unless
    that is undefined. -/
def Behaves (A : CfgTable) (g g' : Region) : Prop :=
  ∀ (M : CfgMachine) (e : M.Entry),
    Process.Refined (M.process A g) (M.process A g') (e.state g) (e.state g')

/-- The second function is well formed, and behaves like the first. -/
structure Simplified (A : CfgTable) (g g' : Region) : Prop where
  wf : g'.Wf A
  behaves : Behaves A g g'

namespace Simplified

variable {A : CfgTable} {g g' g'' : Region}

theorem refl (h : g.Wf A) : Simplified A g g := ⟨h, fun _ _ => .refl _⟩

theorem trans (h : Simplified A g g') (h' : Simplified A g' g'') : Simplified A g g'' :=
  ⟨h'.wf, fun M e => (h.behaves M e).trans (h'.behaves M e)⟩

end Simplified

variable {A : CfgTable} {g g' : Region}

/-! ## Blocks that are not reached -/

/-- Only what is reached matters. -/
theorem behaves_of_reached (hssa : g.Ssa) (h : ∀ b, g.Reached b → g'.block b = g.block b) :
    Behaves A g g' := by
  intro M e
  have hstutters : Process.Stutters (M.process A g) (M.process A g')
      (fun s s' : M.State => s' = s ∧ M.Reachable A g e s) fun _ => 0 := by
    rintro s s' ⟨rfl, hs⟩
    obtain ⟨done, hops, hreached⟩ := hs.located hssa
    cases hrest : s'.rest with
    | nil => exact Or.inl ⟨CfgMachine.step_nil hrest, fun _ => ⟨CfgMachine.step_nil hrest, hrest⟩⟩
    | cons op rest =>
      rcases CfgMachine.lockstep_same (g := g) (A := A) hrest hrest rfl fun _ _ => rfl with
        ⟨hnone, -⟩ | ⟨-, xs, w, event, -, hstep, hstep'⟩ |
          ⟨d, hd, xs, ys, w, event, -, -, hstep, hstep'⟩
      · exact Or.inl (CfgMachine.stuck hrest hnone)
      · exact Or.inr (Or.inr ⟨_, _, event, hstep, hstep', rfl, hs.step hstep⟩)
      · refine Or.inr (Or.inr ⟨_, _, event, hstep, hstep', ?_, hs.step hstep⟩)
        rw [hrest] at hops
        rw [h _ (hreached.step (hssa.edge hops hd).2)]
  apply hstutters.refined
  refine ⟨?_, .entry⟩
  unfold CfgMachine.Entry.state
  rw [h 0 ⟨_, .entry⟩]

/-! ## A new terminator -/

/-- The situation in which the terminator of block `b` is replaced: the new
    one branches to successors of the old, or past a skipped block, the values
    of which nothing else uses. -/
structure Retargets (A : CfgTable) (g : Region) (b : Nat) (init : List Op) (term : Op)
    (branch : Branch) (skip : Nat → Prop) : Prop where
  wf : g.Wf A
  ops_eq : (g.block b).ops = init ++ [term]
  isBranch : term.branch?.isSome = true
  edges : ∀ t ∈ branch.succs, g.Edge b t.dest ∨ ∃ f, skip f ∧ g.Edge b f ∧ g.Edge f t.dest
  typed : ∀ t ∈ branch.succs, t.args.map Value.ty = (g.block t.dest).params.map Value.ty
  conds : ∀ cond t f, branch = .condBr cond t f → cond.ty.intWidth = some 1
  operands : g.Reached b → ∀ v ∈ branch.operands, g.Available b init v ∧
    ∀ f, skip f → v ∈ (g.block f).defs → f = b
  unused : ∀ f, skip f → ∀ v ∈ (g.block f).defs, ∀ c, ∀ op ∈ (g.block c).ops,
    v ∈ op.operands → f = c

namespace Retargets

variable {b : Nat} {init : List Op} {term : Op} {branch : Branch} {skip : Nat → Prop}

theorem lt (h : Retargets A g b init term branch skip) : b < g.blocks.length := by
  by_contra hb
  have hops := h.ops_eq
  rw [block_ops_eq_nil hb] at hops
  simp at hops

theorem block_eq (h : Retargets A g b init term branch skip) (c : Nat) :
    (g.setTerminator b branch).block c =
      if c = b then ⟨(g.block b).params, init ++ [branch.op]⟩ else g.block c := by
  unfold setTerminator
  rw [block_setBlock h.lt, h.ops_eq, List.dropLast_concat]

theorem params_eq (h : Retargets A g b init term branch skip) (c : Nat) :
    ((g.setTerminator b branch).block c).params = (g.block c).params := by
  rw [h.block_eq]
  split_ifs with hc
  · rw [hc]
  · rfl

theorem defs_eq (h : Retargets A g b init term branch skip) (c : Nat) :
    ((g.setTerminator b branch).block c).defs = (g.block c).defs := by
  rw [h.block_eq]
  split_ifs with hc
  · subst hc
    obtain ⟨old, hold⟩ := Option.isSome_iff_exists.mp h.isBranch
    obtain ⟨hresults, -⟩ := Op.branch?_eq_some hold
    obtain ⟨hresults', -⟩ := Op.branch?_eq_some branch.branch_op
    unfold BasicBlock.defs
    rw [h.ops_eq, List.flatMap_append, List.flatMap_append]
    simp [hresults, hresults']
  · rfl

/-- An operation of the new function is the new terminator, or an old
    operation at its old place. -/
theorem split (h : Retargets A g b init term branch skip) {c : Nat} {done rest : List Op} {op : Op}
    (hops : ((g.setTerminator b branch).block c).ops = done ++ op :: rest) :
    (c = b ∧ done = init ∧ op = branch.op ∧ rest = []) ∨
      ∃ rest', (g.block c).ops = done ++ op :: rest' := by
  rw [h.block_eq] at hops
  split_ifs at hops with hc
  · subst hc
    replace hops : init ++ [branch.op] = done ++ op :: rest := hops
    rcases List.eq_nil_or_concat rest with rfl | ⟨rest₀, last, rfl⟩
    · obtain ⟨rfl, heq⟩ := List.append_inj' hops rfl
      obtain rfl := List.singleton_inj.mp heq
      exact Or.inl ⟨rfl, rfl, rfl, rfl⟩
    · rw [List.concat_eq_append, ← List.cons_append, ← List.append_assoc] at hops
      obtain ⟨rfl, -⟩ := List.append_inj' hops rfl
      refine Or.inr ⟨rest₀ ++ [term], ?_⟩
      rw [h.ops_eq, List.append_assoc]
      rfl
  · exact Or.inr ⟨rest, hops⟩

theorem mem_ops (h : Retargets A g b init term branch skip) {op : Op}
    (hop : op ∈ (g.setTerminator b branch).ops) : op = branch.op ∨ op ∈ g.ops := by
  obtain ⟨block, hblock, hop⟩ := List.mem_flatMap.mp hop
  obtain ⟨c, hc, rfl⟩ := List.getElem_of_mem hblock
  rw [← block_eq_getElem hc] at hop
  obtain ⟨done, rest, hops⟩ := List.append_of_mem hop
  rcases h.split hops with ⟨-, -, heq, -⟩ | ⟨rest', hops'⟩
  · exact Or.inl heq
  · right
    apply mem_ops_of_block (b := c)
    rw [hops']
    exact List.mem_append_right _ List.mem_cons_self

theorem edge_lift (h : Retargets A g b init term branch skip) (u v : Nat)
    (hedge : (g.setTerminator b branch).Edge u v) :
    g.Edge u v ∨ ∃ f, skip f ∧ g.Edge u f ∧ g.Edge f v := by
  have hblock := h.block_eq u
  by_cases hu : u = b
  · subst hu
    rw [if_pos rfl] at hblock
    have hops : ((g.setTerminator u branch).block u).ops = init ++ [branch.op] := by rw [hblock]
    obtain ⟨t, ht, rfl⟩ := (mem_succs_last hops v).mp hedge
    rw [(Op.branch?_eq_some branch.branch_op).2.1] at ht
    exact h.edges t ht
  · rw [if_neg hu] at hblock
    left
    unfold Edge succs at hedge ⊢
    rwa [hblock] at hedge

theorem reached (h : Retargets A g b init term branch skip) {c : Nat}
    (hc : (g.setTerminator b branch).Reached c) : g.Reached c :=
  Reaches.lift h.edge_lift hc

/-- Values are available where they were, but for those of skipped blocks. -/
theorem available (h : Retargets A g b init term branch skip) {c : Nat} {done : List Op}
    {v : Value} (havail : g.Available c done v)
    (hskip : ∀ f, skip f → v ∈ (g.block f).defs → f = c) :
    (g.setTerminator b branch).Available c done v := by
  rcases havail with hp | hd | ⟨a, hne, hdom, ha⟩
  · left
    rw [h.params_eq]
    exact hp
  · exact Or.inr (Or.inl hd)
  · refine Or.inr (Or.inr ⟨a, hne, ?_, ?_⟩)
    · exact hdom.lift h.edge_lift fun hskip' => hne (hskip a hskip' ha)
    · rw [h.defs_eq]
      exact ha

theorem ssa (h : Retargets A g b init term branch skip) : (g.setTerminator b branch).Ssa := by
  refine ⟨?_, ?_, ?_, ?_⟩
  · have hdefs : (g.setTerminator b branch).blocks.flatMap BasicBlock.defs
        = g.blocks.flatMap BasicBlock.defs := by
      have hmap : (g.setTerminator b branch).blocks.map BasicBlock.defs
          = g.blocks.map BasicBlock.defs := by
        apply List.ext_getElem
        · rw [List.length_map, List.length_map, setTerminator, length_setBlock]
        · intro c hc hc'
          rw [List.getElem_map, List.getElem_map, ← block_eq_getElem, ← block_eq_getElem, h.defs_eq]
      rw [List.flatMap_def, List.flatMap_def, hmap]
    rw [hdefs]
    exact h.wf.nodup
  · intro block hblock op hop
    obtain ⟨c, hc, rfl⟩ := List.getElem_of_mem hblock
    rw [setTerminator, length_setBlock] at hc
    rw [← block_eq_getElem, h.block_eq] at hop
    split_ifs at hop with hcb
    · simp only [List.dropLast_concat] at hop
      apply h.wf.terminator _ (block_mem h.lt) op
      rwa [h.ops_eq, List.dropLast_concat]
    · exact h.wf.terminator _ (block_mem hc) op hop
  · intro block hblock op hop
    obtain ⟨c, hc, rfl⟩ := List.getElem_of_mem hblock
    rw [setTerminator, length_setBlock] at hc
    rw [← block_eq_getElem, h.block_eq] at hop
    split_ifs at hop with hcb
    · simp only [List.getLast?_append, List.getLast?_singleton, Option.some_or] at hop
      cases hop
      exact (Op.branch?_eq_some branch.branch_op).2.2.2
    · exact h.wf.ends _ (block_mem hc) op hop
  · intro op hop t ht
    rw [setTerminator, length_setBlock]
    rcases h.mem_ops hop with rfl | hop
    · rw [(Op.branch?_eq_some branch.branch_op).2.1] at ht
      rcases h.edges t ht with hedge | ⟨f, -, -, hedge⟩
      · exact h.wf.succs_lt hedge
      · exact h.wf.succs_lt hedge
    · exact h.wf.target op hop t ht

theorem wf_setTerminator (h : Retargets A g b init term branch skip) :
    (g.setTerminator b branch).Wf A := by
  obtain ⟨-, hsuccs, hoperands, -⟩ := Op.branch?_eq_some branch.branch_op
  refine ⟨h.ssa, ?_, ?_, ?_, ?_, ?_⟩
  · intro c done op rest hops hc v hv
    rcases h.split hops with ⟨rfl, rfl, rfl, -⟩ | ⟨rest', hops'⟩
    · rw [hoperands] at hv
      obtain ⟨havail, hskip⟩ := h.operands (h.reached hc) v hv
      exact h.available havail hskip
    · apply h.available (h.wf.uses c done op rest' hops' (h.reached hc) v hv)
      intro f hf hvf
      apply h.unused f hf v hvf c op _ hv
      rw [hops']
      exact List.mem_append_right _ List.mem_cons_self
  · intro c hc
    rw [h.block_eq]
    split_ifs with hcb
    · exact List.append_ne_nil_of_right_ne_nil _ (List.cons_ne_nil _ _)
    · exact h.wf.ended c (h.reached hc)
  · intro op hop t ht
    rw [h.params_eq]
    rcases h.mem_ops hop with rfl | hop
    · exact h.typed t (hsuccs ▸ ht)
    · exact h.wf.typed op hop t ht
  · intro op hop cond t f hbranch
    rcases h.mem_ops hop with rfl | hop
    · rw [branch.branch_op] at hbranch
      exact h.conds cond t f (Option.some.inj hbranch)
    · exact h.wf.conds op hop cond t f hbranch
  · intro op hop c hconst r hr
    rcases h.mem_ops hop with rfl | hop
    · rw [(Op.branch?_eq_some branch.branch_op).1] at hr
      exact absurd hr List.not_mem_nil
    · exact h.wf.consts op hop c hconst r hr

/-! ### The same way -/

/-- The states of the two functions: they differ in the terminator to come. -/
structure InStep (A : CfgTable) (g : Region) (b : Nat) (term : Op) (branch : Branch) {M : CfgMachine}
    (e : M.Entry) (s s' : M.State) : Prop where
  reachable : M.Reachable A g e s
  block_eq : s'.block = s.block
  env_eq : s'.env = s.env
  world_eq : s'.world = s.world
  rest : (s.block ≠ b ∧ s'.rest = s.rest) ∨
    ∃ mid, s.block = b ∧ s.rest = mid ++ [term] ∧ s'.rest = mid ++ [branch.op]

theorem inStep_start (h : Retargets A g b init term branch skip) {M : CfgMachine} {e : M.Entry}
    {d : Nat} {env : PVals} {w : M.World} (hs : M.Reachable A g e ⟨d, (g.block d).ops, env, w⟩) :
    InStep A g b term branch e ⟨d, (g.block d).ops, env, w⟩
      ⟨d, ((g.setTerminator b branch).block d).ops, env, w⟩ := by
  refine ⟨hs, rfl, rfl, rfl, ?_⟩
  by_cases hd : d = b
  · right
    refine ⟨init, hd, ?_, ?_⟩
    · show (g.block d).ops = _
      rw [hd, h.ops_eq]
    · show ((g.setTerminator b branch).block d).ops = _
      rw [h.block_eq, if_pos hd]
  · left
    refine ⟨hd, ?_⟩
    show ((g.setTerminator b branch).block d).ops = _
    rw [h.block_eq, if_neg hd]

/-- Where the new terminator always goes the way of the old one, the new
    function behaves like the old. -/
theorem behaves_of_taken (h : Retargets A g b init term branch skip) {old : Branch}
    (hold : term.branch? = some old)
    (htaken : ∀ (M : CfgMachine) (e : M.Entry) (s : M.State), M.Reachable A g e s → s.block = b →
      s.rest = [term] → ∀ d, old.taken s.env = some d → branch.taken s.env = some d) :
    Behaves A g (g.setTerminator b branch) := by
  intro M e
  have hstutters : Process.Stutters (M.process A g) (M.process A (g.setTerminator b branch))
      (InStep A g b term branch e) fun _ => 0 := by
    intro s s' hrel
    -- An operation both functions have.
    have hsame : ∀ {op rest rest'}, s.rest = op :: rest → s'.rest = op :: rest' →
        (∀ {xs w event},
          M.step A g s = some (⟨s.block, rest, PVals.setAll s.env op.results xs, w⟩, event) →
          InStep A g b term branch e ⟨s.block, rest, PVals.setAll s.env op.results xs, w⟩
            ⟨s'.block, rest', PVals.setAll s'.env op.results xs, w⟩) →
        M.step A g s = none ∨
          ∃ t t' event, M.step A g s = some (t, event) ∧
            M.step A (g.setTerminator b branch) s' = some (t', event) ∧
            InStep A g b term branch e t t' := by
      intro op rest rest' hrest hrest' hnext
      rcases CfgMachine.lockstep_same (g := g) (A := A) hrest hrest' hrel.world_eq
        (fun v _ => congrFun hrel.env_eq v) with
        ⟨hnone, -⟩ | ⟨-, xs, w, event, -, hstep, hstep'⟩ |
          ⟨d, hd, xs, ys, w, event, -, -, hstep, hstep'⟩
      · exact Or.inl hnone
      · exact Or.inr ⟨_, _, event, hstep, hstep', hnext hstep⟩
      · refine Or.inr ⟨_, _, event, hstep, hstep', ?_⟩
        rw [h.params_eq, hrel.env_eq]
        exact h.inStep_start (hrel.reachable.step hstep)
    rcases hrel.rest with ⟨hb, hrest'⟩ | ⟨mid, hb, hrest, hrest'⟩
    · cases hrest : s.rest with
      | nil =>
        have hend : s'.rest = [] := hrest'.trans hrest
        exact Or.inl ⟨CfgMachine.step_nil hrest, fun _ => ⟨CfgMachine.step_nil hend, hend⟩⟩
      | cons op rest =>
        rcases hsame hrest (hrest'.trans hrest) fun hstep => ⟨hrel.reachable.step hstep, hrel.block_eq,
          by rw [hrel.env_eq], rfl, Or.inl ⟨hb, rfl⟩⟩ with hnone | hboth
        · exact Or.inl (CfgMachine.stuck hrest hnone)
        · exact Or.inr (Or.inr hboth)
    · cases mid with
      | nil =>
        -- The terminators: they go the same way with the same arguments.
        have hstep := CfgMachine.step_branch (g := g) (A := A) hrest hold
        have hstep' := CfgMachine.step_branch (g := g.setTerminator b branch) (A := A) hrest'
          branch.branch_op
        cases hd : old.taken s.env with
        | none =>
          rw [hd] at hstep
          exact Or.inl (CfgMachine.stuck hrest hstep)
        | some d =>
          rw [hrel.env_eq, htaken M e s hrel.reachable hb hrest d hd, hrel.world_eq] at hstep'
          rw [hd] at hstep
          simp only [Option.bind_some, CfgMachine.enter] at hstep hstep'
          cases hys : d.args.mapM s.env with
          | none =>
            rw [hys] at hstep
            exact Or.inl (CfgMachine.stuck hrest hstep)
          | some ys =>
            rw [hys] at hstep hstep'
            refine Or.inr (Or.inr ⟨_, _, none, hstep, hstep', ?_⟩)
            rw [h.params_eq]
            exact h.inStep_start (hrel.reachable.step hstep)
      | cons op mid =>
        rcases hsame hrest hrest' fun hstep => ⟨hrel.reachable.step hstep, hrel.block_eq,
          by rw [hrel.env_eq], rfl, Or.inr ⟨mid, hb, rfl, rfl⟩⟩ with hnone | hboth
        · exact Or.inl (CfgMachine.stuck hrest hnone)
        · exact Or.inr (Or.inr hboth)
  apply hstutters.refined
  unfold CfgMachine.Entry.state
  rw [h.params_eq]
  exact h.inStep_start .entry

end Retargets

end Region

end Crabbit.Llvm
