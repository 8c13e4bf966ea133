/-
  Crabbit.Llvm.CfgBypass

  Bypassing a block that only forwards: an edge into it becomes one to its
  destination, which passes what the block would pass on.
-/

import Crabbit.Llvm.CfgMerge

namespace Crabbit.Llvm

open Crabbit.Lib

namespace Region

variable {A : CfgTable} {g : Region}

/-! ## What is passed on -/

/-- An argument of the forwarding branch, seen from an edge into the block. -/
def forwardArg (params args : List Value) (v : Value) : Value :=
  if v ∈ params then args.getD (params.idxOf v) v else v

theorem forwardArg_of_notMem {params args : List Value} {v : Value} (hv : v ∉ params) :
    forwardArg params args v = v := if_neg hv

/-- The parameters are what the edge passes for them. -/
theorem map_forwardArg {params args : List Value} (hnodup : params.Nodup)
    (hlen : args.length = params.length) : params.map (forwardArg params args) = args := by
  apply List.ext_getElem
  · rw [List.length_map, hlen]
  · intro i hi hi'
    rw [List.length_map] at hi
    rw [List.getElem_map]
    unfold forwardArg
    rw [if_pos (List.getElem_mem hi), hnodup.idxOf_getElem, List.getD_eq_getElem?_getD,
      List.getElem?_eq_getElem hi']
    rfl

theorem forwardArg_mem {params args : List Value} (hlen : args.length = params.length) {v : Value}
    (hv : v ∈ params) : forwardArg params args v ∈ args := by
  unfold forwardArg
  have hi : params.idxOf v < args.length := hlen ▸ List.idxOf_lt_length_iff.mpr hv
  rw [if_pos hv, List.getD_eq_getElem?_getD, List.getElem?_eq_getElem hi]
  exact List.getElem_mem hi

theorem forwardArg_ty {params args : List Value} (hnodup : params.Nodup)
    (hty : args.map Value.ty = params.map Value.ty) (v : Value) :
    (forwardArg params args v).ty = v.ty := by
  by_cases hv : v ∈ params
  · have hlen : args.length = params.length := by
      have := congrArg List.length hty
      rwa [List.length_map, List.length_map] at this
    rw [← map_forwardArg hnodup hlen, List.map_map] at hty
    exact List.map_inj_left.mp hty v hv
  · rw [forwardArg_of_notMem hv]

theorem forwarded_eq_some {params : List Value} {succ edge d : Successor}
    (h : forwarded params succ edge = some d) : edge.args.length = params.length ∧
      d = ⟨succ.dest, succ.args.map (forwardArg params edge.args)⟩ := by
  unfold forwarded at h
  split_ifs at h with hlen
  cases h
  exact ⟨not_not.mp hlen, rfl⟩

/-- The new terminator goes where the old one does, or past the block. -/
theorem retarget_eq_some {f : Nat} {params : List Value} {succ : Successor} {old branch : Branch}
    (h : retarget f params succ old = some branch) :
    (∃ d ∈ old.succs, d.dest = f) ∧
    (∀ d' ∈ branch.succs, ∃ d ∈ old.succs, retargetEdge f params succ d = some d') ∧
    (∀ (env : PVals) d, old.taken env = some d →
      ∃ d', branch.taken env = some d' ∧ retargetEdge f params succ d = some d') ∧
    ∀ cond t' f', branch = .condBr cond t' f' → ∃ t e, old = .condBr cond t e := by
  cases old with
  | br t =>
    unfold retarget at h
    dsimp only at h
    split_ifs at h with ht
    replace ht : t.dest = f := not_not.mp ht
    obtain ⟨t', ht', rfl⟩ := Option.map_eq_some_iff.mp h
    have hedge : retargetEdge f params succ t = some t' := by
      unfold retargetEdge
      rw [if_pos ht, ht']
    refine ⟨⟨t, List.mem_cons_self, ht⟩, ?_, ?_, fun _ _ _ h => by cases h⟩
    · intro d' hd'
      rw [List.mem_singleton.mp hd']
      exact ⟨t, List.mem_cons_self, hedge⟩
    · intro env d hd
      cases hd
      exact ⟨t', rfl, hedge⟩
  | condBr cond t e =>
    unfold retarget at h
    dsimp only at h
    obtain ⟨t', ht', h⟩ := Option.bind_eq_some_iff.mp h
    obtain ⟨e', he', h⟩ := Option.bind_eq_some_iff.mp h
    split_ifs at h with hany
    cases h
    refine ⟨?_, ?_, ?_, ?_⟩
    · rcases hany with hany | hany
      · exact ⟨t, List.mem_cons_self, hany⟩
      · exact ⟨e, List.mem_cons_of_mem _ List.mem_cons_self, hany⟩
    · intro d' hd'
      rcases List.mem_cons.mp hd' with rfl | hd'
      · exact ⟨t, List.mem_cons_self, ht'⟩
      · rw [List.mem_singleton.mp hd']
        exact ⟨e, List.mem_cons_of_mem _ List.mem_cons_self, he'⟩
    · intro env d hd
      obtain ⟨bit, hbit, rfl⟩ := Option.map_eq_some_iff.mp hd
      refine ⟨if bit then t' else e', ?_, ?_⟩
      · show ((env cond).bind PVal.bit?).map _ = _
        rw [hbit]
        rfl
      · cases bit
        · exact he'
        · exact ht'
    · intro cond' t'' e'' heq
      cases heq
      exact ⟨t, e, rfl⟩

/-- It uses what the old one did, and what the block passes on. -/
theorem mem_operands_retarget {f : Nat} {params : List Value} {succ : Successor}
    {old branch : Branch} (h : retarget f params succ old = some branch) {v : Value}
    (hv : v ∈ branch.operands) : v ∈ old.operands ∨ (v ∈ succ.args ∧ v ∉ params) := by
  obtain ⟨-, hsuccs, -, hconds⟩ := retarget_eq_some h
  rcases mem_branch_operands hv with ⟨d', hd', hv⟩ | ⟨t', f', rfl⟩
  · obtain ⟨d, hd, hedge⟩ := hsuccs d' hd'
    have hargs : ∀ w ∈ d.args, w ∈ old.operands := by
      intro w hw
      rw [← (Op.branch?_eq_some old.branch_op).2.2.1]
      apply Op.mem_operands_of_succ _ hw
      rw [(Op.branch?_eq_some old.branch_op).2.1]
      exact hd
    unfold retargetEdge at hedge
    split_ifs at hedge
    · obtain ⟨hlen, rfl⟩ := forwarded_eq_some hedge
      obtain ⟨w, hw, rfl⟩ := List.mem_map.mp hv
      by_cases hp : w ∈ params
      · exact Or.inl (hargs _ (forwardArg_mem hlen hp))
      · rw [forwardArg_of_notMem hp]
        exact Or.inr ⟨hw, hp⟩
    · cases hedge
      exact Or.inl (hargs v hv)
  · obtain ⟨t, e, rfl⟩ := hconds v t' f' rfl
    exact Or.inl List.mem_cons_self

/-! ## A forwarding block -/

/-- A block that only branches, with parameters that nothing else uses. -/
structure Forwards (g : Region) (f : Nat) (succ : Successor) (term : Op) : Prop where
  ops_eq : (g.block f).ops = [term]
  isBr : term.branch? = some (.br succ)
  ne : succ.dest ≠ f
  unused : ∀ v ∈ (g.block f).params, ∀ c, ∀ op ∈ (g.block c).ops, v ∈ op.operands → f = c

theorem forwarding_eq_some {f : Nat} {succ : Successor} (h : g.forwarding f = some succ) :
    ∃ term, Forwards g f succ term := by
  unfold forwarding at h
  split at h
  · rename_i term hops
    split at h
    · rename_i succ' hterm
      split_ifs at h with hne huses
      cases h
      refine ⟨term, hops, hterm, hne, fun v hv c op hop hvop => ?_⟩
      by_contra hc
      refine huses ⟨v, hv, c, List.mem_range.mpr ?_, fun heq => hc heq.symm, op, hop, hvop⟩
      by_contra hlt
      rw [block_ops_eq_nil hlt] at hop
      exact absurd hop List.not_mem_nil
    · cases h
  · cases h

namespace Forwards

variable {f : Nat} {succ : Successor} {fterm : Op}

theorem succs_eq (hf : Forwards g f succ fterm) : fterm.succs = [succ] :=
  (Op.branch?_eq_some hf.isBr).2.1

theorem edge (hf : Forwards g f succ fterm) : g.Edge f succ.dest := by
  have hops : (g.block f).ops = [] ++ [fterm] := hf.ops_eq
  exact (mem_succs_last hops _).mpr ⟨succ, hf.succs_eq ▸ List.mem_cons_self, rfl⟩

theorem defs_eq (hf : Forwards g f succ fterm) : (g.block f).defs = (g.block f).params := by
  unfold BasicBlock.defs
  rw [hf.ops_eq, List.flatMap_singleton, (Op.branch?_eq_some hf.isBr).1, List.append_nil]

theorem typed (hf : Forwards g f succ fterm) (hg : g.Wf A) :
    succ.args.map Value.ty = (g.block succ.dest).params.map Value.ty := by
  apply hg.typed fterm (mem_ops_of_block (b := f) _) succ (hf.succs_eq ▸ List.mem_cons_self)
  rw [hf.ops_eq]
  exact List.mem_cons_self

/-- What the block passes on, and does not get passed, was available before
    it. -/
theorem available_arg (hf : Forwards g f succ fterm) (hg : g.Wf A) {b : Nat} (hb : g.Reached b)
    (hedge : g.Edge b f) {v : Value} (hv : v ∈ succ.args) (hp : v ∉ (g.block f).params) :
    g.Available b (g.block b).ops v := by
  have hops : (g.block f).ops = [] ++ fterm :: [] := hf.ops_eq
  have havail : g.Available f [] v := by
    apply hg.uses f [] fterm [] hops (hb.step hedge)
    rw [(Op.branch?_eq_some hf.isBr).2.2.1]
    exact hv
  exact havail.pred hedge hp

/-- A terminator can be led past the block. -/
theorem retargets (hf : Forwards g f succ fterm) (hg : g.Wf A) {b : Nat} {old branch : Branch}
    (hold : g.branch? b = some old)
    (h : retarget f (g.block f).params succ old = some branch) :
    ∃ init term, Retargets A g b init term branch (fun c => c = f) ∧ term.branch? = some old ∧
      b ≠ f := by
  obtain ⟨-, init, term, hops, hterm⟩ := branch?_eq_some hold
  obtain ⟨hresults, hsuccs, hoperands, -⟩ := Op.branch?_eq_some hterm
  obtain ⟨⟨d₀, hd₀, hdest₀⟩, hedges, -, hconds⟩ := retarget_eq_some h
  have hmem : term ∈ g.ops := mem_ops_of_block (b := b) (by rw [hops]; simp)
  have hedge : ∀ d ∈ old.succs, g.Edge b d.dest := fun d hd =>
    (mem_succs_last hops d.dest).mpr ⟨d, hsuccs ▸ hd, rfl⟩
  have hbf : b ≠ f := by
    rintro rfl
    -- The block branches somewhere else, not to itself.
    have hone : init ++ [term] = [] ++ [fterm] := hops.symm.trans hf.ops_eq
    obtain ⟨-, heq⟩ := List.append_inj' hone rfl
    rw [List.singleton_inj.mp heq, hf.isBr] at hterm
    cases hterm
    rw [List.mem_singleton.mp hd₀] at hdest₀
    exact hf.ne hdest₀
  have hparams : ∀ v ∈ old.operands, v ∉ (g.block f).params := by
    intro v hv hp
    refine hbf (hf.unused v hp b term ?_ (hoperands ▸ hv)).symm
    rw [hops]
    exact List.mem_append_right _ List.mem_cons_self
  refine ⟨init, term, ⟨hg, hops, by rw [hterm]; rfl, ?_, ?_, ?_, ?_, ?_⟩, hterm, hbf⟩
  · intro d' hd'
    obtain ⟨d, hd, hretarget⟩ := hedges d' hd'
    unfold retargetEdge at hretarget
    split_ifs at hretarget with hdf
    · obtain ⟨-, rfl⟩ := forwarded_eq_some hretarget
      exact Or.inr ⟨f, rfl, hdf ▸ hedge d hd, hf.edge⟩
    · cases hretarget
      exact Or.inl (hedge _ hd)
  · intro d' hd'
    obtain ⟨d, hd, hretarget⟩ := hedges d' hd'
    have hty := hg.typed term hmem d (hsuccs ▸ hd)
    unfold retargetEdge at hretarget
    split_ifs at hretarget with hdf
    · obtain ⟨-, rfl⟩ := forwarded_eq_some hretarget
      rw [hdf] at hty
      have hnodup := (List.nodup_append.mp (hg.defs_nodup f)).1
      rw [← hf.typed hg, List.map_map]
      exact List.map_congr_left fun v _ => forwardArg_ty hnodup hty v
    · cases hretarget
      exact hty
  · intro cond t' f' heq
    obtain ⟨t, e, rfl⟩ := hconds cond t' f' heq
    exact hg.conds term hmem cond t e hterm
  · intro hb v hv
    rcases mem_operands_retarget h hv with hv | ⟨hv, hp⟩
    · refine ⟨hg.uses b init term [] hops hb v (hoperands ▸ hv), ?_⟩
      rintro c rfl hdef
      exact absurd (hf.defs_eq ▸ hdef) (hparams v hv)
    · refine ⟨?_, ?_⟩
      · have havail := hf.available_arg hg hb (hdest₀ ▸ hedge d₀ hd₀) hv hp
        rw [hops] at havail
        apply havail.of_append
        rw [hresults]
        exact List.not_mem_nil
      · rintro c rfl hdef
        exact absurd (hf.defs_eq ▸ hdef) hp
  · rintro c rfl v hv c' op hop hvop
    exact hf.unused v (hf.defs_eq ▸ hv) c' op hop hvop

/-- The block still forwards after that. -/
theorem setTerminator (hf : Forwards g f succ fterm) {b : Nat} {init : List Op} {term : Op}
    {old branch : Branch} (hr : Retargets A g b init term branch (fun c => c = f))
    (hterm : term.branch? = some old) (hbf : b ≠ f)
    (h : retarget f (g.block f).params succ old = some branch) :
    Forwards (g.setTerminator b branch) f succ fterm ∧
      ((g.setTerminator b branch).block f).params = (g.block f).params := by
  refine ⟨⟨?_, hf.isBr, hf.ne, ?_⟩, hr.params_eq f⟩
  · rw [hr.block_eq, if_neg (Ne.symm hbf)]
    exact hf.ops_eq
  · intro v hv c op hop hvop
    rw [hr.params_eq] at hv
    rw [hr.block_eq] at hop
    split_ifs at hop with hcb
    · have hunused := hf.unused v hv b
      rw [hr.ops_eq] at hunused
      rcases List.mem_append.mp hop with hop | hop
      · rw [hcb]
        exact hunused op (List.mem_append_left _ hop) hvop
      · rw [List.mem_singleton.mp hop, (Op.branch?_eq_some branch.branch_op).2.2.1] at hvop
        rcases mem_operands_retarget h hvop with hvop | ⟨-, hp⟩
        · rw [hcb]
          apply hunused term (List.mem_append_right _ List.mem_cons_self)
          rw [(Op.branch?_eq_some hterm).2.2.1]
          exact hvop
        · exact absurd hv hp
    · exact hf.unused v hv c op hop hvop

/-! ### The same values -/

/-- The states of the two functions.  The first one may be in the block when
    the second is still at the branch that leads past it; only there are the
    parameters of the block different. -/
inductive Bypassing (A : CfgTable) (g : Region) (b f : Nat) (succ : Successor) (term fterm : Op)
    (branch : Branch) {M : CfgMachine} (e : M.Entry) (s s' : M.State) : Prop where
  | along (hs : M.Reachable A g e s) (hworld : s'.world = s.world)
      (hrest : (s.block ≠ b ∧ s'.rest = s.rest) ∨
        ∃ mid, s.block = b ∧ s.rest = mid ++ [term] ∧ s'.rest = mid ++ [branch.op])
      (henv : ∀ done, (g.block s.block).ops = done ++ s.rest → ∀ v, g.Available s.block done v →
        (v ∈ (g.block f).params → s.block = f) → s'.env v = s.env v)
  | through (hs : M.Reachable A g e s) (hworld : s'.world = s.world) (hblock : s.block = f)
      (hrest : s.rest = [fterm]) (hrest' : s'.rest = [branch.op]) (d : Successor)
      (htaken : branch.taken s'.env = some d) (hdest : d.dest = succ.dest)
      (hargs : d.args.mapM s'.env = succ.args.mapM s.env)
      (henv : ∀ v, g.Available f [] v → v ∉ (g.block f).params → s'.env v = s.env v)

variable {b : Nat} {init : List Op} {term : Op} {old branch : Branch}

theorem bypassing_start (hr : Retargets A g b init term branch (fun c => c = f)) {M : CfgMachine}
    {e : M.Entry} {d : Nat} {env env' : PVals} {w : M.World}
    (hs : M.Reachable A g e ⟨d, (g.block d).ops, env, w⟩)
    (henv : ∀ v, g.Available d [] v → (v ∈ (g.block f).params → d = f) → env' v = env v) :
    Bypassing A g b f succ term fterm branch e ⟨d, (g.block d).ops, env, w⟩
      ⟨d, ((g.setTerminator b branch).block d).ops, env', w⟩ := by
  refine .along hs rfl ?_ ?_
  · by_cases hd : d = b
    · subst hd
      refine Or.inr ⟨init, rfl, hr.ops_eq, ?_⟩
      show ((g.setTerminator d branch).block d).ops = _
      rw [hr.block_eq, if_pos rfl]
    · refine Or.inl ⟨hd, ?_⟩
      show ((g.setTerminator b branch).block d).ops = _
      rw [hr.block_eq, if_neg hd]
  · intro done hdone v hv
    obtain rfl : done = [] := List.self_eq_append_left.mp hdone
    exact henv v hv

/-- Passing the same arguments. -/
theorem env_jump {c d : Nat} (hedge : g.Edge c d) {env env' : PVals} {ys : List PVal}
    (hlen : ys.length = (g.block d).params.length)
    (henv : ∀ v, g.Available c (g.block c).ops v → (v ∈ (g.block f).params → c = f) →
      env' v = env v) {v : Value} (hv : g.Available d [] v)
    (hf : v ∈ (g.block f).params → d = f) :
    env'.setAll (g.block d).params ys v = env.setAll (g.block d).params ys v := by
  apply PVals.setAll_agree hlen
  intro hp
  apply henv v (hv.pred hedge hp)
  intro hvf
  rw [← hf hvf] at hvf
  exact absurd hvf hp

/-- An operation both functions have at hand. -/
theorem along_step (hf : Forwards g f succ fterm)
    (hr : Retargets A g b init term branch (fun c => c = f)) {M : CfgMachine} {e : M.Entry}
    {s s' : M.State} (hs : M.Reachable A g e s) (hworld : s'.world = s.world) {op : Op}
    {done rest rest' : List Op} (hops : (g.block s.block).ops = done ++ op :: rest)
    (hrest : s.rest = op :: rest) (hrest' : s'.rest = op :: rest')
    (hnext : (s.block ≠ b ∧ rest' = rest) ∨
      ∃ mid, s.block = b ∧ rest = mid ++ [term] ∧ rest' = mid ++ [branch.op])
    (henv : ∀ v, g.Available s.block done v → (v ∈ (g.block f).params → s.block = f) →
      s'.env v = s.env v) :
    M.step A g s = none ∨ ∃ t t' event, M.step A g s = some (t, event) ∧
      M.step A (g.setTerminator b branch) s' = some (t', event) ∧
      Bypassing A g b f succ term fterm branch e t t' := by
  obtain ⟨-, -, hreached⟩ := hs.located hr.wf.toSsa
  have hop : op ∈ (g.block s.block).ops := by
    rw [hops]
    exact List.mem_append_right _ List.mem_cons_self
  have hvals : ∀ v ∈ op.operands, s'.env v = s.env v := fun v hv =>
    henv v (hr.wf.uses s.block done op rest hops hreached v hv) fun hp =>
      (hf.unused v hp s.block op hop hv).symm
  -- Defining the results leaves the states in agreement.
  have hdefine : ∀ {xs : List PVal}, xs.length = op.results.length → ∀ v,
      g.Available s.block (done ++ [op]) v → (v ∈ (g.block f).params → s.block = f) →
      s'.env.setAll op.results xs v = s.env.setAll op.results xs v := fun hlen v hv hvf =>
    PVals.setAll_agree hlen fun hres => henv v (hv.of_append hres) hvf
  rcases CfgMachine.lockstep_same (g := g) (A := A) hrest hrest' hworld hvals with
    ⟨hnone, -⟩ | ⟨-, xs, w, event, hlen, hstep, hstep'⟩ |
      ⟨d, hd, xs, ys, w, event, hlen, hlen', hstep, hstep'⟩
  · exact Or.inl hnone
  · refine Or.inr ⟨_, _, event, hstep, hstep', .along (hs.step hstep) rfl hnext ?_⟩
    intro done' hdone' v hv hvf
    obtain rfl : done' = done ++ [op] := by
      apply (List.append_left_inj rest).mp
      rw [List.append_assoc]
      exact hdone'.symm.trans hops
    exact hdefine hlen v hv hvf
  · obtain ⟨rfl, hedge⟩ := hr.wf.toSsa.edge hops hd
    have htyped := congrArg List.length (hr.wf.typed op (mem_ops_of_block hop) d hd)
    rw [List.length_map, List.length_map] at htyped
    rw [hr.params_eq] at hstep'
    refine Or.inr ⟨_, _, event, hstep, hstep', bypassing_start hr (hs.step hstep) ?_⟩
    intro v hv hvf
    apply env_jump hedge (hlen'.trans htyped) _ hv hvf
    intro v hv hvf
    rw [hops] at hv
    exact hdefine hlen v hv hvf

/-- At the branch the first function may enter the block alone. -/
theorem along_branch (hf : Forwards g f succ fterm)
    (hr : Retargets A g b init term branch (fun c => c = f)) (hterm : term.branch? = some old)
    (hbf : b ≠ f) (h : retarget f (g.block f).params succ old = some branch) {M : CfgMachine}
    {e : M.Entry} {s s' : M.State} (hs : M.Reachable A g e s) (hworld : s'.world = s.world)
    (hblock : s.block = b) (hrest : s.rest = [term]) (hrest' : s'.rest = [branch.op])
    (henv : ∀ v, g.Available b init v → v ∉ (g.block f).params → s'.env v = s.env v) :
    M.step A g s = none ∨
    (∃ t, M.step A g s = some (t, none) ∧ t.block = f ∧
      Bypassing A g b f succ term fterm branch e t s') ∨
    ∃ t t' event, M.step A g s = some (t, event) ∧
      M.step A (g.setTerminator b branch) s' = some (t', event) ∧
      Bypassing A g b f succ term fterm branch e t t' := by
  obtain ⟨-, -, hreached⟩ := hs.located hr.wf.toSsa
  rw [hblock] at hreached
  obtain ⟨-, hsuccs, hoperands, -⟩ := Op.branch?_eq_some hterm
  have hmem : term ∈ (g.block b).ops := by
    rw [hr.ops_eq]
    exact List.mem_append_right _ List.mem_cons_self
  -- What the new terminator uses is the same.
  have hvals : ∀ v ∈ branch.operands, s'.env v = s.env v := by
    intro v hv
    obtain ⟨havail, hskip⟩ := hr.operands hreached v hv
    exact henv v havail fun hp => hbf (hskip f rfl (List.mem_append_left _ hp)).symm
  have hstep := CfgMachine.step_branch (g := g) (A := A) hrest hterm
  have hstep' := CfgMachine.step_branch (g := g.setTerminator b branch) (A := A) hrest'
    branch.branch_op
  rw [Branch.taken_of_agree hvals] at hstep'
  cases hd : old.taken s.env with
  | none =>
    rw [hd] at hstep
    exact Or.inl hstep
  | some d =>
    obtain ⟨-, -, htaken, -⟩ := retarget_eq_some h
    obtain ⟨d', hd', hedge'⟩ := htaken s.env d hd
    have hdsucc : d ∈ term.succs := hsuccs ▸ Branch.mem_succs_of_taken hd
    have hedge : g.Edge b d.dest := (mem_succs_last hr.ops_eq _).mpr ⟨d, hdsucc, rfl⟩
    have htyped := congrArg List.length (hr.wf.typed term (mem_ops_of_block hmem) d hdsucc)
    rw [List.length_map, List.length_map] at htyped
    -- The arguments of the new edge are operands of the new terminator.
    have hargs : ∀ v ∈ d'.args, s'.env v = s.env v := by
      intro v hv
      apply hvals
      rw [← (Op.branch?_eq_some branch.branch_op).2.2.1]
      apply Op.mem_operands_of_succ _ hv
      rw [(Op.branch?_eq_some branch.branch_op).2.1]
      exact Branch.mem_succs_of_taken hd'
    rw [hd] at hstep
    rw [hd'] at hstep'
    simp only [Option.bind_some, CfgMachine.enter] at hstep hstep'
    rw [mapM_eq_of_agree hargs, hworld, hr.params_eq] at hstep'
    unfold retargetEdge at hedge'
    split_ifs at hedge' with hdf
    · obtain ⟨hlen, rfl⟩ := forwarded_eq_some hedge'
      cases hys : d.args.mapM s.env with
      | none =>
        rw [hys] at hstep
        exact Or.inl hstep
      | some ys =>
        rw [hys] at hstep
        refine Or.inr (Or.inl ⟨_, hstep, hdf, ?_⟩)
        have hnodup := (List.nodup_append.mp (hr.wf.defs_nodup f)).1
        refine .through (hs.step hstep) hworld hdf ?_ hrest'
          ⟨succ.dest, succ.args.map (forwardArg (g.block f).params d.args)⟩ ?_ rfl ?_ ?_
        · show (g.block d.dest).ops = _
          rw [hdf]
          exact hf.ops_eq
        · rw [Branch.taken_of_agree hvals]
          exact hd'
        · show (succ.args.map _).mapM s'.env = _
          apply CfgMachine.mapM_subst
          intro v hv
          rw [hargs _ (List.mem_map_of_mem hv), hdf]
          by_cases hp : v ∈ (g.block f).params
          · exact (PVals.setAll_of_mapM _ (map_forwardArg hnodup hlen) hys hp).symm
          · rw [forwardArg_of_notMem hp]
            exact (PVals.setAll_of_notMem hp).symm
        · intro v hv hp
          have hend := hv.pred (hdf ▸ hedge) hp
          rw [hr.ops_eq] at hend
          rw [hdf]
          refine Eq.trans (henv v (hend.of_append ?_) hp) (PVals.setAll_of_notMem hp).symm
          rw [(Op.branch?_eq_some hterm).1]
          exact List.not_mem_nil
    · cases hedge'
      cases hys : d.args.mapM s.env with
      | none =>
        rw [hys] at hstep
        exact Or.inl hstep
      | some ys =>
        rw [hys] at hstep hstep'
        refine Or.inr (Or.inr ⟨_, _, none, hstep, hstep', bypassing_start hr (hs.step hstep) ?_⟩)
        intro v hv hvf
        apply env_jump hedge ((CfgMachine.length_of_mapM hys).trans htyped) _ hv hvf
        intro v hv hvf
        rw [hr.ops_eq] at hv
        refine henv v (hv.of_append ?_) fun hp => hbf (hvf hp)
        rw [(Op.branch?_eq_some hterm).1]
        exact List.not_mem_nil

/-- In the block the two functions meet. -/
theorem through_step (hf : Forwards g f succ fterm)
    (hr : Retargets A g b init term branch (fun c => c = f)) {M : CfgMachine} {e : M.Entry}
    {s s' : M.State} (hs : M.Reachable A g e s) (hworld : s'.world = s.world)
    (hrest : s.rest = [fterm]) (hrest' : s'.rest = [branch.op]) {d : Successor}
    (htaken : branch.taken s'.env = some d) (hdest : d.dest = succ.dest)
    (hargs : d.args.mapM s'.env = succ.args.mapM s.env)
    (henv : ∀ v, g.Available f [] v → v ∉ (g.block f).params → s'.env v = s.env v) :
    M.step A g s = none ∨ ∃ t t' event, M.step A g s = some (t, event) ∧
      M.step A (g.setTerminator b branch) s' = some (t', event) ∧
      Bypassing A g b f succ term fterm branch e t t' := by
  have hstep := CfgMachine.step_branch (g := g) (A := A) hrest hf.isBr
  have hstep' := CfgMachine.step_branch (g := g.setTerminator b branch) (A := A) hrest'
    branch.branch_op
  rw [show Branch.taken s.env (.br succ) = some succ from rfl] at hstep
  rw [htaken] at hstep'
  simp only [Option.bind_some, CfgMachine.enter] at hstep hstep'
  rw [hargs, hworld, hdest, hr.params_eq] at hstep'
  cases hys : succ.args.mapM s.env with
  | none =>
    rw [hys] at hstep
    exact Or.inl hstep
  | some ys =>
    rw [hys] at hstep hstep'
    refine Or.inr ⟨_, _, none, hstep, hstep', bypassing_start hr (hs.step hstep) ?_⟩
    have htyped := congrArg List.length (hf.typed hr.wf)
    rw [List.length_map, List.length_map] at htyped
    intro v hv hvf
    have hp : v ∉ (g.block f).params := fun hp => hf.ne (hvf hp)
    apply PVals.setAll_agree ((CfgMachine.length_of_mapM hys).trans htyped)
    intro hvd
    have hend : g.Available f ([] ++ [fterm]) v := by
      have := hv.pred hf.edge hvd
      rwa [hf.ops_eq] at this
    refine henv v (hend.of_append ?_) hp
    rw [(Op.branch?_eq_some hf.isBr).1]
    exact List.not_mem_nil

theorem behaves (hf : Forwards g f succ fterm)
    (hr : Retargets A g b init term branch (fun c => c = f)) (hterm : term.branch? = some old)
    (hbf : b ≠ f) (h : retarget f (g.block f).params succ old = some branch) :
    Behaves A g (g.setTerminator b branch) := by
  intro M e
  have hstutters : Process.Stutters (M.process A g) (M.process A (g.setTerminator b branch))
      (Bypassing A g b f succ term fterm branch e) fun s => if s.block = b then 1 else 0 := by
    rintro s s' (⟨hs, hworld, hcases, henv⟩ |
      ⟨hs, hworld, hblock, hrest, hrest', d, htaken, hdest, hargs, henv⟩)
    · obtain ⟨done, hops, -⟩ := hs.located hr.wf.toSsa
      replace henv := henv done hops
      rcases hcases with ⟨hb, hrest'⟩ | ⟨mid, hb, hrest, hrest'⟩
      · cases hrest : s.rest with
        | nil =>
          have hend : s'.rest = [] := hrest'.trans hrest
          exact Or.inl ⟨CfgMachine.step_nil hrest, fun _ => ⟨CfgMachine.step_nil hend, hend⟩⟩
        | cons op rest =>
          rw [hrest] at hops hrest'
          rcases hf.along_step hr hs hworld hops hrest hrest' (Or.inl ⟨hb, rfl⟩) henv with
            hnone | hboth
          · exact Or.inl (CfgMachine.stuck hrest hnone)
          · exact Or.inr (Or.inr hboth)
      · rw [hrest] at hops
        cases mid with
        | nil =>
          rw [hb] at henv hops
          obtain ⟨rfl, -⟩ := List.append_inj' (hr.ops_eq.symm.trans hops) rfl
          rcases hf.along_branch hr hterm hbf h hs hworld hb hrest hrest'
            (fun v hv hp => henv v hv fun hvf => absurd hvf hp) with
            hnone | ⟨t, hstep, hblock, hrel⟩ | hboth
          · exact Or.inl (CfgMachine.stuck hrest hnone)
          · refine Or.inr (Or.inl ⟨t, hstep, hrel, ?_⟩)
            show (if t.block = b then 1 else 0) < if CfgMachine.State.block s = b then 1 else 0
            rw [hblock, if_neg (Ne.symm hbf), if_pos hb]
            exact Nat.one_pos
          · exact Or.inr (Or.inr hboth)
        | cons op mid =>
          rcases hf.along_step hr hs hworld hops hrest hrest' (Or.inr ⟨mid, hb, rfl, rfl⟩) henv with
            hnone | hboth
          · exact Or.inl (CfgMachine.stuck hrest hnone)
          · exact Or.inr (Or.inr hboth)
    · rcases hf.through_step hr hs hworld hrest hrest' htaken hdest hargs henv with hnone | hboth
      · exact Or.inl (CfgMachine.stuck hrest hnone)
      · exact Or.inr (Or.inr hboth)
  apply hstutters.refined
  unfold CfgMachine.Entry.state
  rw [hr.params_eq]
  exact bypassing_start hr .entry fun _ _ _ => rfl

end Forwards

/-! ## All of them -/

/-- Bypassing one block keeps what the function does. -/
theorem Wf.bypassBlock (hg : g.Wf A) (f : Nat) : Simplified A g (g.bypassBlock f).1 := by
  unfold Region.bypassBlock
  cases hforward : g.forwarding f with
  | none => exact .refl hg
  | some succ =>
    dsimp only
    obtain ⟨fterm, hf⟩ := forwarding_eq_some hforward
    -- The block stays a forwarding one while the others are retargeted.
    refine (List.foldlRecOn (motive := fun s : Region × Bool => Simplified A g s.1 ∧
      Forwards s.1 f succ fterm ∧ (s.1.block f).params = (g.block f).params) _ _
      ⟨.refl hg, hf, rfl⟩ ?_).1
    rintro ⟨g', changed⟩ ⟨hsimp, hf', hparams⟩ c -
    cases hbranch : (g'.branch? c).bind (retarget f (g.block f).params succ) with
    | none =>
      exact ⟨hsimp, hf', hparams⟩
    | some branch =>
      obtain ⟨old, hold, hretarget⟩ := Option.bind_eq_some_iff.mp hbranch
      rw [← hparams] at hretarget
      obtain ⟨init, term, hr, hterm, hcf⟩ := hf'.retargets hsimp.wf hold hretarget
      obtain ⟨hf'', hparams'⟩ := hf'.setTerminator hr hterm hcf hretarget
      refine ⟨?_, hf'', hparams'.trans hparams⟩
      exact hsimp.trans ⟨hr.wf_setTerminator, hf'.behaves hr hterm hcf hretarget⟩

/-- `bypass_forwarding_blocks` keeps what the function does. -/
theorem Wf.bypassForwardingBlocks (hg : g.Wf A) :
    Simplified A g g.bypassForwardingBlocks.1 := by
  unfold Region.bypassForwardingBlocks
  refine List.foldlRecOn (motive := fun s : Region × Bool => Simplified A g s.1) _ _ (.refl hg) ?_
  rintro ⟨g', changed⟩ h b -
  exact h.trans (h.wf.bypassBlock b)

end Region

end Crabbit.Llvm
