/-
  Crabbit.Llvm.PoisonRuns

  Executions of a function whose pure operations are evaluated with poison.
  What the other operations do is up to the machine: they act on a world of
  their own and say where a branch goes.
-/

import Crabbit.Llvm.Framed
import Crabbit.Llvm.Poison
import Mathlib.Logic.Function.Basic

namespace Crabbit.Llvm

open Crabbit.Lib Region

/-! ## The machine -/

structure PoisonMachine extends Target where
  World : Type
  /-- The results of an operation that is not pure, the world after it, and
      which successor a branch takes; none where it is undefined. -/
  exec : Op → List PVal → World → Option (List PVal × World × Nat)

abbrev PVals := Value → Option PVal

def PVals.setAll (env : PVals) : List Value → List PVal → PVals
  | v :: vs, x :: xs => setAll (Function.update env v (some x)) vs xs
  | _, _ => env

namespace PoisonMachine

variable (M : PoisonMachine)

structure State where
  block : Nat
  rest : List Op
  env : PVals
  world : M.World

/-- A call of the function. -/
structure Entry where
  args : List PVal
  world : M.World

def Entry.state {M : PoisonMachine} (e : M.Entry) (g : Region) : M.State :=
  ⟨0, (g.block 0).ops, PVals.setAll (fun _ => none) (g.block 0).params e.args, e.world⟩

inductive Step (T : AttrTable) (g : Region) : M.State → M.State → Prop
  | pure {b op rest w args x} {env : PVals} (hpure : op.opid.isPure = true) (hsuccs : op.succs = [])
      (hargs : op.operands.mapM env = some args) (heval : op.evalPure T M.toTarget args = some x) :
      Step T g ⟨b, op :: rest, env, w⟩ ⟨b, rest, env.setAll op.results [x], w⟩
  | next {b op rest w args xs w' choice} {env : PVals} (hpure : op.opid.isPure = false)
      (hsuccs : op.succs = []) (hargs : op.operands.mapM env = some args)
      (hexec : M.exec op args w = some (xs, w', choice)) :
      Step T g ⟨b, op :: rest, env, w⟩ ⟨b, rest, env.setAll op.results xs, w'⟩
  | jump {b op rest w args xs w' choice} {env : PVals} {d : Successor} {ys : List PVal}
      (hpure : op.opid.isPure = false) (hargs : op.operands.mapM env = some args)
      (hexec : M.exec op args w = some (xs, w', choice)) (hd : op.succs[choice]? = some d)
      (hys : d.args.mapM env = some ys) :
      Step T g ⟨b, op :: rest, env, w⟩
        ⟨d.dest, (g.block d.dest).ops,
          (env.setAll op.results xs).setAll (g.block d.dest).params ys, w'⟩

/-- A state some execution of the function gets to. -/
inductive Reachable (T : AttrTable) (g : Region) (e : M.Entry) : M.State → Prop where
  | entry : Reachable T g e (e.state g)
  | step {s t : M.State} (h : Reachable T g e s) (hstep : M.Step T g s t) : Reachable T g e t

end PoisonMachine

/-! ## Frames -/

theorem PVals.setAll_of_notMem {env : PVals} {vs : List Value} {xs : List PVal} {v : Value}
    (h : v ∉ vs) : env.setAll vs xs v = env v := by
  induction vs generalizing xs env with
  | nil => rfl
  | cons w vs ih =>
    rw [List.mem_cons, not_or] at h
    cases xs with
    | nil => rfl
    | cons x xs =>
      rw [setAll, ih h.2, Function.update_of_ne h.1]

/-- The values that are set do not depend on what was there before. -/
theorem PVals.setAll_of_mem {env env' : PVals} {vs : List Value} {xs : List PVal}
    (hlen : xs.length = vs.length) {v : Value} (h : v ∈ vs) :
    env'.setAll vs xs v = env.setAll vs xs v := by
  induction vs generalizing xs env env' with
  | nil => exact absurd h List.not_mem_nil
  | cons w vs ih =>
    cases xs with
    | nil => cases hlen
    | cons x xs =>
      rw [setAll, setAll]
      by_cases hv : v ∈ vs
      · exact ih (Nat.succ.inj hlen) hv
      · obtain rfl : v = w := (List.mem_cons.mp h).resolve_right hv
        rw [setAll_of_notMem hv, setAll_of_notMem hv, Function.update_self, Function.update_self]

/-- Values that agreed before agree after. -/
theorem PVals.setAll_agree {env env' : PVals} {vs : List Value} {xs : List PVal}
    (hlen : xs.length = vs.length) {v : Value} (h : v ∉ vs → env' v = env v) :
    env'.setAll vs xs v = env.setAll vs xs v := by
  by_cases hv : v ∈ vs
  · exact setAll_of_mem hlen hv
  · rw [setAll_of_notMem hv, setAll_of_notMem hv, h hv]

/-- What is set to the values of others. -/
theorem PVals.setAll_of_mapM {env env' : PVals} {vs ws : List Value} {ys : List PVal}
    (f : Value → Value) (hmap : ws.map f = vs) (hys : vs.mapM env = some ys) {v : Value}
    (hv : v ∈ ws) : env'.setAll ws ys v = env (f v) := by
  induction ws generalizing vs ys env' with
  | nil => exact absurd hv List.not_mem_nil
  | cons w ws ih =>
    subst hmap
    rw [List.map_cons, List.mapM_cons] at hys
    obtain ⟨y, hy, hys⟩ := Option.bind_eq_some_iff.mp hys
    obtain ⟨ys', hys', hcons⟩ := Option.bind_eq_some_iff.mp hys
    cases hcons
    rw [setAll]
    by_cases hmem : v ∈ ws
    · exact ih rfl hys' hmem
    · obtain rfl : v = w := (List.mem_cons.mp hv).resolve_right hmem
      rw [setAll_of_notMem hmem, Function.update_self, hy]

/-- Values that agree on a list have the same images of it. -/
theorem mapM_eq_of_agree {α β : Type*} {f f' : α → Option β} {vs : List α}
    (h : ∀ v ∈ vs, f' v = f v) : vs.mapM f' = vs.mapM f := by
  induction vs with
  | nil => rfl
  | cons v vs ih =>
    rw [List.mapM_cons, List.mapM_cons, h v List.mem_cons_self,
      ih fun w hw => h w (List.mem_cons_of_mem _ hw)]

namespace PoisonMachine

variable {M : PoisonMachine} {T : AttrTable} {g : Region} {e : M.Entry}

theorem Step.frame {s t : M.State} (h : M.Step T g s t) :
    ∃ op rest, s.rest = op :: rest ∧
      ((op.succs = [] ∧ t.block = s.block ∧ t.rest = rest ∧
          ∀ v, v ∉ op.results → t.env v = s.env v) ∨
        ∃ d ∈ op.succs, t.block = d.dest ∧ t.rest = (g.block d.dest).ops ∧
          ∀ v, v ∉ op.results → v ∉ (g.block d.dest).params → t.env v = s.env v) := by
  cases h with
  | pure _ hsuccs =>
    exact ⟨_, _, rfl, Or.inl ⟨hsuccs, rfl, rfl, fun _ hv => PVals.setAll_of_notMem hv⟩⟩
  | next _ hsuccs =>
    exact ⟨_, _, rfl, Or.inl ⟨hsuccs, rfl, rfl, fun _ hv => PVals.setAll_of_notMem hv⟩⟩
  | jump _ _ _ hd =>
    refine ⟨_, _, rfl, Or.inr ⟨_, List.mem_of_getElem? hd, rfl, rfl, fun v hv hp => ?_⟩⟩
    exact (PVals.setAll_of_notMem hp).trans (PVals.setAll_of_notMem hv)

/-- The executions of the machine from an entry. -/
def framed (M : PoisonMachine) (T : AttrTable) (g : Region) (e : M.Entry) : Framed g where
  State := M.State
  Data := PVal
  block := State.block
  rest := State.rest
  env := State.env
  Entry s := s = e.state g
  Step s t := M.Step T g s t
  entry := by
    rintro s rfl
    exact ⟨rfl, rfl⟩
  frame := fun h => h.frame

namespace Reachable

variable {s : M.State}

theorem toFramed (h : M.Reachable T g e s) : (M.framed T g e).Reachable s := by
  induction h with
  | entry => exact .entry rfl
  | step _ hstep ih => exact ih.step hstep

/-- The result of a pure operation is, wherever it is available, what the
    operation evaluates to on the values its operands have there. -/
theorem evaluated (hssa : g.Ssa) (huses : g.UsesDominated) {c : Nat} {cdone crest : List Op}
    {op : Op} (hdef : (g.block c).ops = cdone ++ op :: crest) (hc : g.Reached c)
    (hpure : op.opid.isPure = true) {r : Value} (hr : op.results = [r]) (hsuccs : op.succs = [])
    (h : M.Reachable T g e s) {done : List Op} (hops : (g.block s.block).ops = done ++ s.rest)
    (havail : g.Available s.block done r) :
    ∃ args x, op.operands.mapM s.env = some args ∧ op.evalPure T M.toTarget args = some x ∧
      s.env r = some x := by
  have hrop : r ∈ op.results := by rw [hr]; exact List.mem_cons_self
  have hoperands : ∀ v ∈ op.operands, g.Available c cdone v := huses c cdone op crest hdef hc
  apply h.toFramed.stable hssa hdef hrop hsuccs hoperands (φ := fun env => ∃ args x,
    op.operands.mapM env = some args ∧ op.evalPure T M.toTarget args = some x ∧ env r = some x)
    _ _ hops havail
  · rintro env env' hagree ⟨args, x, hargs, heval, hx⟩
    refine ⟨args, x, ?_, heval, (hagree r List.mem_cons_self).trans hx⟩
    rw [mapM_eq_of_agree fun v hv => hagree v (List.mem_cons_of_mem _ hv), hargs]
  · intro s t rest hs hrest hstep
    -- The operands are defined before the result, so defining it leaves them alone.
    have hkeep : ∀ v ∈ op.operands, v ≠ r := fun v hv heq =>
      hssa.not_available hdef hrop (heq ▸ hoperands v hv)
    replace hstep : M.Step T g s t := hstep
    replace hrest : s.rest = op :: rest := hrest
    cases hstep with
    | pure _ _ hargs heval =>
      obtain ⟨rfl, rfl⟩ := List.cons.inj hrest
      refine ⟨_, _, ?_, heval, ?_⟩
      · refine Eq.trans (mapM_eq_of_agree fun v hv => ?_) hargs
        show PVals.setAll _ _ _ v = _
        rw [hr]
        exact Function.update_of_ne (hkeep v hv) ..
      · show PVals.setAll _ _ _ r = _
        rw [hr]
        exact Function.update_self ..
    | next hnot =>
      obtain ⟨rfl, rfl⟩ := List.cons.inj hrest
      rw [hpure] at hnot
      cases hnot
    | jump hnot =>
      obtain ⟨rfl, rfl⟩ := List.cons.inj hrest
      rw [hpure] at hnot
      cases hnot

end Reachable

end PoisonMachine

end Crabbit.Llvm
