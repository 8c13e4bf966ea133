/-
  Crabbit.Llvm.CfgRuns

  Executions of a function whose branches, constants and comparisons of single
  bits mean what they do, and whose other operations are up to the machine.

  An operation that is not `br` or `cond_br` is seen from outside, with the
  values of its operands; the branches are silent.
-/

import Crabbit.Lib.Stuttering
import Crabbit.Llvm.Framed
import Crabbit.Llvm.PoisonRuns
import Crabbit.Llvm.Rewrite

namespace Crabbit.Llvm

open Crabbit.Lib Region

/-! ## Branches -/

/-- The terminators that do nothing but branch. -/
inductive Branch where
  | br (t : Successor)
  | condBr (cond : Value) (trueDest falseDest : Successor)
  deriving DecidableEq

def Branch.succs : Branch → List Successor
  | .br t => [t]
  | .condBr _ t f => [t, f]

def Branch.operands : Branch → List Value
  | .br t => t.args
  | .condBr cond t f => cond :: (t.args ++ f.args)

def Branch.subst (repl : Value → Value) : Branch → Branch
  | .br t => .br (t.subst repl)
  | .condBr cond t f => .condBr (repl cond) (t.subst repl) (f.subst repl)

/-- A new terminator; it has no attributes. -/
def Branch.op : Branch → Op
  | .br t => .generic .br 0 [] [] [t]
  | .condBr cond t f => .generic .condBr 0 [] [cond] [t, f]

def Op.branch? : Op → Option Branch
  | .generic id _ results operands succs =>
    if id = .br then
      match results, operands, succs with
      | [], [], [t] => some (.br t)
      | _, _, _ => none
    else if id = .condBr then
      match results, operands, succs with
      | [], [cond], [t, f] => some (.condBr cond t f)
      | _, _, _ => none
    else none
  | _ => none

/-- The low bit of an integer. -/
def PVal.bit? : PVal → Option Bool
  | .int bits => some (bits % 2 = 1)
  | _ => none

/-- Where the branch goes; a branch on poison is undefined. -/
def Branch.taken (env : PVals) : Branch → Option Successor
  | .br t => some t
  | .condBr cond t f => ((env cond).bind PVal.bit?).map fun bit => if bit then t else f

/-! ## The machine -/

/-- What the attribute tags of constants and comparisons stand for. -/
structure CfgTable where
  const : Nat → Option ConstOperand
  icmp : Nat → ICmpPredicate

/-- The integer a constant operation stands for. -/
def Op.const? (A : CfgTable) : Op → Option ConstOperand
  | .generic id attrs results operands succs =>
    if id = .constant ∧ results.length = 1 ∧ operands = [] ∧ succs = [] then A.const attrs else none
  | _ => none

/-- The predicate of a comparison of single bits. -/
def Op.bitCompare? (A : CfgTable) : Op → Option ICmpPredicate
  | .generic id attrs results operands succs =>
    if id = .icmp ∧ results.length = 1 ∧ operands.length = 2 ∧ succs = [] ∧
        (∃ v ∈ operands, v.ty.intWidth = some 1) then
      some (A.icmp attrs)
    else none
  | _ => none

/-- What the other operations do, given the values of their operands.  They
    are told apart by everything but the names of the operands. -/
structure CfgMachine where
  World : Type
  exec : Op → List PVal → World → Option (List PVal × World × Nat)

/-- The operation without the names of its operands. -/
def Op.shape (op : Op) : Op := op.subst fun v => ⟨0, v.ty⟩

/-- A comparison of single bits. -/
def compareBits (p : ICmpPredicate) : List PVal → Option PVal
  | [.int x, .int y] => some (.int (evalICmp p 1 (x % 2) (y % 2)).toNat)
  | [.poison, .int _] | [.int _, .poison] | [.poison, .poison] => some .poison
  | _ => none

/-- An operation that was executed, with the values of its operands. -/
structure CfgEvent where
  op : Op
  args : List PVal

namespace CfgMachine

variable (M : CfgMachine) (A : CfgTable)

def eval (op : Op) (args : List PVal) (w : M.World) : Option (List PVal × M.World × Nat) :=
  match op.const? A, op.bitCompare? A with
  | some c, _ => some ([.int c.masked], w, 0)
  | none, some p => (compareBits p args).map fun z => ([z], w, 0)
  | none, none => M.exec op.shape args w

structure State where
  block : Nat
  rest : List Op
  env : PVals
  world : M.World

/-- A call of the function. -/
structure Entry where
  args : List PVal
  world : M.World

variable {M} in
def Entry.state (e : M.Entry) (g : Region) : M.State :=
  ⟨0, (g.block 0).ops, PVals.setAll (fun _ => none) (g.block 0).params e.args, e.world⟩

/-- What executing an operation comes to. -/
structure Performed where
  args : List PVal
  results : List PVal
  world : M.World
  choice : Nat

/-- The operation is executed; it has as many results as it should. -/
def perform (op : Op) (env : PVals) (w : M.World) : Option M.Performed :=
  (op.operands.mapM env).bind fun args =>
    (M.eval A op args w).bind fun (xs, w', choice) =>
      if xs.length = op.results.length then some ⟨args, xs, w', choice⟩ else none

/-- Control goes along an edge; `env` has the arguments, `env'` is what they
    are passed on top of. -/
def enter (g : Region) (d : Successor) (env env' : PVals) (w : M.World) : Option M.State :=
  (d.args.mapM env).map fun ys =>
    ⟨d.dest, (g.block d.dest).ops, env'.setAll (g.block d.dest).params ys, w⟩

def step (g : Region) (s : M.State) : Option (M.State × Option CfgEvent) :=
  match s.rest with
  | [] => none
  | op :: rest =>
    match op.branch?, op.succs with
    | some b, _ =>
      (b.taken s.env).bind fun d => (M.enter g d s.env s.env s.world).map fun t => (t, none)
    | none, [] =>
      (M.perform A op s.env s.world).map fun p =>
        (⟨s.block, rest, PVals.setAll s.env op.results p.results, p.world⟩, some ⟨op.shape, p.args⟩)
    | none, succs =>
      (M.perform A op s.env s.world).bind fun p => succs[p.choice]?.bind fun d =>
        (M.enter g d s.env (PVals.setAll s.env op.results p.results) p.world).map fun t =>
          (t, some ⟨op.shape, p.args⟩)

/-- The executions of a function.  They end after the last operation of a
    block that does not branch; anywhere else, to be stuck is to be
    undefined. -/
def process (g : Region) : Process CfgEvent where
  State := M.State
  step := M.step A g
  final s := s.rest = []

/-- A state some execution of the function gets to. -/
inductive Reachable (g : Region) (e : M.Entry) : M.State → Prop where
  | entry : Reachable g e (e.state g)
  | step {s t : M.State} {event : Option CfgEvent} (h : Reachable g e s)
      (hstep : M.step A g s = some (t, event)) : Reachable g e t

end CfgMachine

/-! ## Branches and rewriting -/

section Branches

variable {repl : Value → Value}

theorem Branch.branch_op (b : Branch) : b.op.branch? = some b := by
  cases b <;> rfl

/-- A branch as an operation. -/
theorem Op.branch?_eq_some {op : Op} {b : Branch} (h : op.branch? = some b) :
    op.results = [] ∧ op.succs = b.succs ∧ op.operands = b.operands ∧ op.isGeneric = true := by
  unfold branch? at h
  split at h
  · split_ifs at h
    · split at h
      · cases h
        refine ⟨rfl, rfl, ?_, rfl⟩
        show [] ++ (_ ++ []) = _
        rw [List.nil_append, List.append_nil]
        rfl
      · cases h
    · split at h
      · cases h
        refine ⟨rfl, rfl, ?_, rfl⟩
        show [_] ++ (_ ++ (_ ++ [])) = _
        rw [List.append_nil]
        rfl
      · cases h
  · cases h

theorem Op.mem_operands_of_succ {op : Op} {d : Successor} (hd : d ∈ op.succs) {v : Value}
    (hv : v ∈ d.args) : v ∈ op.operands := by
  cases op with
  | generic id attrs results operands succs =>
    exact List.mem_append_right _ (List.mem_flatMap.mpr ⟨d, hd, hv⟩)
  | _ => exact absurd hd List.not_mem_nil

theorem Branch.taken_of_agree {b : Branch} {env env' : PVals}
    (h : ∀ v ∈ b.operands, env' v = env v) : b.taken env' = b.taken env := by
  cases b with
  | br t => rfl
  | condBr cond t f =>
    show ((env' cond).bind PVal.bit?).map _ = _
    rw [h cond List.mem_cons_self]
    rfl

theorem Branch.mem_succs_of_taken {b : Branch} {env : PVals} {d : Successor}
    (h : b.taken env = some d) : d ∈ b.succs := by
  cases b with
  | br t =>
    cases h
    exact List.mem_cons_self
  | condBr cond t f =>
    obtain ⟨bit, -, rfl⟩ := Option.map_eq_some_iff.mp h
    split_ifs
    · exact List.mem_cons_self
    · exact List.mem_cons_of_mem _ List.mem_cons_self

theorem Op.branch?_subst (op : Op) : (op.subst repl).branch? = op.branch?.map (Branch.subst repl) := by
  cases op with
  | generic id attrs results operands succs =>
    show Op.branch? (.generic id attrs results (operands.map repl) (succs.map _)) = _
    unfold branch?
    dsimp only
    split_ifs
    · rcases results with _ | _ <;> rcases operands with _ | _ <;>
        rcases succs with _ | ⟨_, _ | _⟩ <;> rfl
    · rcases results with _ | _ <;> rcases operands with _ | ⟨_, _ | _⟩ <;>
        rcases succs with _ | ⟨_, _ | ⟨_, _ | _⟩⟩ <;> rfl
    · rfl
  | _ => rfl

theorem Op.const?_subst (A : CfgTable) (op : Op) : (op.subst repl).const? A = op.const? A := by
  cases op with
  | generic id attrs results operands succs =>
    show (if _ then _ else _) = (if _ then _ else _)
    simp only [List.map_eq_nil_iff]
  | _ => rfl

theorem Op.bitCompare?_subst (h : ∀ x, (repl x).ty = x.ty) (A : CfgTable) (op : Op) :
    (op.subst repl).bitCompare? A = op.bitCompare? A := by
  cases op with
  | generic id attrs results operands succs =>
    show (if _ then _ else _) = (if _ then _ else _)
    simp only [List.length_map, List.map_eq_nil_iff, List.mem_map, exists_exists_and_eq_and, h]
  | _ => rfl

/-- Values of the same types have the same shape. -/
theorem Op.shape_subst (h : ∀ x, (repl x).ty = x.ty) (op : Op) : (op.subst repl).shape = op.shape := by
  unfold shape
  rw [Op.subst_subst]
  congr 1
  funext x
  exact congrArg (Value.mk 0) (h x)

theorem CfgMachine.eval_subst (h : ∀ x, (repl x).ty = x.ty) (M : CfgMachine) (A : CfgTable)
    (op : Op) : M.eval A (op.subst repl) = M.eval A op := by
  funext args w
  unfold eval
  rw [Op.const?_subst, Op.bitCompare?_subst h, Op.shape_subst h]

end Branches

/-! ## Steps -/

namespace CfgMachine

variable {M : CfgMachine} {A : CfgTable} {g : Region} {e : M.Entry} {s t : M.State}

theorem step_nil (hrest : s.rest = []) : M.step A g s = none := by
  unfold step
  rw [hrest]

/-- Stuck before the end of a block. -/
theorem stuck {op : Op} {rest : List Op} {p : Prop} (hrest : s.rest = op :: rest)
    (hstep : M.step A g s = none) :
    (M.process A g).step s = none ∧ ((M.process A g).final s → p) := by
  refine ⟨hstep, fun hfinal => ?_⟩
  replace hfinal : s.rest = [] := hfinal
  rw [hrest] at hfinal
  cases hfinal

theorem step_branch {op : Op} {rest : List Op} {b : Branch} (hrest : s.rest = op :: rest)
    (hb : op.branch? = some b) : M.step A g s =
      (b.taken s.env).bind fun d => (M.enter g d s.env s.env s.world).map fun t => (t, none) := by
  unfold step
  rw [hrest]
  dsimp only
  rw [hb]

theorem step_next {op : Op} {rest : List Op} (hrest : s.rest = op :: rest)
    (hb : op.branch? = none) (hsuccs : op.succs = []) : M.step A g s =
      (M.perform A op s.env s.world).map fun p =>
        (⟨s.block, rest, PVals.setAll s.env op.results p.results, p.world⟩,
          some ⟨op.shape, p.args⟩) := by
  unfold step
  rw [hrest]
  dsimp only
  rw [hb, hsuccs]

theorem step_jump {op : Op} {rest : List Op} (hrest : s.rest = op :: rest)
    (hb : op.branch? = none) (hsuccs : op.succs ≠ []) : M.step A g s =
      (M.perform A op s.env s.world).bind fun p => op.succs[p.choice]?.bind fun d =>
        (M.enter g d s.env (PVals.setAll s.env op.results p.results) p.world).map fun t =>
          (t, some ⟨op.shape, p.args⟩) := by
  unfold step
  rw [hrest]
  dsimp only
  rw [hb]
  obtain ⟨d, succs, hcons⟩ := List.exists_cons_of_ne_nil hsuccs
  rw [hcons]

theorem perform_length {op : Op} {env : PVals} {w : M.World} {p : M.Performed}
    (h : M.perform A op env w = some p) : p.results.length = op.results.length := by
  unfold perform at h
  obtain ⟨args, -, h⟩ := Option.bind_eq_some_iff.mp h
  obtain ⟨⟨xs, w', choice⟩, -, h⟩ := Option.bind_eq_some_iff.mp h
  dsimp only at h
  split_ifs at h with hlen
  cases h
  exact hlen

theorem enter_eq_some {d : Successor} {env env' : PVals} {w : M.World}
    (h : M.enter g d env env' w = some t) : ∃ ys, d.args.mapM env = some ys ∧
      t = ⟨d.dest, (g.block d.dest).ops, env'.setAll (g.block d.dest).params ys, w⟩ := by
  obtain ⟨ys, hys, rfl⟩ := Option.map_eq_some_iff.mp h
  exact ⟨ys, hys, rfl⟩

/-- A step, whatever the operation. -/
theorem step_eq_some {event : Option CfgEvent} (h : M.step A g s = some (t, event)) :
    ∃ op rest xs, s.rest = op :: rest ∧ xs.length = op.results.length ∧
      ((op.succs = [] ∧ ∃ w, t = ⟨s.block, rest, PVals.setAll s.env op.results xs, w⟩) ∨
        ∃ d ∈ op.succs, ∃ w, M.enter g d s.env (PVals.setAll s.env op.results xs) w = some t) := by
  cases hrest : s.rest with
  | nil =>
    unfold step at h
    rw [hrest] at h
    cases h
  | cons op rest =>
    cases hb : op.branch? with
    | some b =>
      obtain ⟨hresults, hsuccs, -, -⟩ := Op.branch?_eq_some hb
      rw [step_branch hrest hb] at h
      obtain ⟨d, hd, h⟩ := Option.bind_eq_some_iff.mp h
      obtain ⟨t', ht, heq⟩ := Option.map_eq_some_iff.mp h
      cases heq
      refine ⟨op, rest, [], rfl, by rw [hresults]; rfl, Or.inr ⟨d, ?_, s.world, ?_⟩⟩
      · rw [hsuccs]
        exact Branch.mem_succs_of_taken hd
      · rw [hresults]
        exact ht
    | none =>
      by_cases hsuccs : op.succs = []
      · rw [step_next hrest hb hsuccs] at h
        obtain ⟨p, hp, heq⟩ := Option.map_eq_some_iff.mp h
        cases heq
        exact ⟨op, rest, p.results, rfl, perform_length hp, Or.inl ⟨hsuccs, p.world, rfl⟩⟩
      · rw [step_jump hrest hb hsuccs] at h
        obtain ⟨p, hp, h⟩ := Option.bind_eq_some_iff.mp h
        obtain ⟨d, hd, h⟩ := Option.bind_eq_some_iff.mp h
        obtain ⟨t', ht, heq⟩ := Option.map_eq_some_iff.mp h
        cases heq
        exact ⟨op, rest, p.results, rfl, perform_length hp,
          Or.inr ⟨d, List.mem_of_getElem? hd, p.world, ht⟩⟩

/-- The executions from an entry. -/
def framed (M : CfgMachine) (A : CfgTable) (g : Region) (e : M.Entry) : Framed g where
  State := M.State
  Data := PVal
  block := State.block
  rest := State.rest
  env := State.env
  Entry s := s = e.state g
  Step s t := ∃ event, M.step A g s = some (t, event)
  entry := by
    rintro s rfl
    exact ⟨rfl, rfl⟩
  frame := by
    rintro s t ⟨event, hstep⟩
    obtain ⟨op, rest, xs, hrest, -, ⟨hsuccs, w, rfl⟩ | ⟨d, hd, w, hd'⟩⟩ := step_eq_some hstep
    · exact ⟨op, rest, hrest, Or.inl ⟨hsuccs, rfl, rfl, fun v hv => PVals.setAll_of_notMem hv⟩⟩
    · obtain ⟨ys, -, rfl⟩ := enter_eq_some hd'
      refine ⟨op, rest, hrest, Or.inr ⟨d, hd, rfl, rfl, fun v hv hp => ?_⟩⟩
      exact (PVals.setAll_of_notMem hp).trans (PVals.setAll_of_notMem hv)

namespace Reachable

theorem toFramed (h : M.Reachable A g e s) : (M.framed A g e).Reachable s := by
  induction h with
  | entry => exact .entry rfl
  | step _ hstep ih => exact ih.step ⟨_, hstep⟩

/-- Control is somewhere in a block it can get to. -/
theorem located (hssa : g.Ssa) (h : M.Reachable A g e s) :
    ∃ done, (g.block s.block).ops = done ++ s.rest ∧ g.Reached s.block :=
  h.toFramed.located hssa

/-- What the result of an operation that does not look at the world is,
    wherever it is available: what the operation comes to on the values its
    operands have there. -/
theorem evaluated (hssa : g.Ssa) (huses : g.UsesDominated) {c : Nat} {cdone crest : List Op}
    {op : Op} (hdef : (g.block c).ops = cdone ++ op :: crest) (hc : g.Reached c) {r : Value}
    (hr : op.results = [r]) (hsuccs : op.succs = []) {value : List PVal → Option PVal}
    (heval : ∀ args w out, M.eval A op args w = some out →
      ∃ x, value args = some x ∧ out.1 = [x])
    (h : M.Reachable A g e s) {done : List Op} (hops : (g.block s.block).ops = done ++ s.rest)
    (havail : g.Available s.block done r) :
    ∃ args x, op.operands.mapM s.env = some args ∧ value args = some x ∧ s.env r = some x := by
  have hrop : r ∈ op.results := by rw [hr]; exact List.mem_cons_self
  have hoperands : ∀ v ∈ op.operands, g.Available c cdone v := huses c cdone op crest hdef hc
  apply h.toFramed.stable hssa hdef hrop hsuccs hoperands (φ := fun env => ∃ args x,
    op.operands.mapM env = some args ∧ value args = some x ∧ env r = some x) _ _ hops havail
  · rintro env env' hagree ⟨args, x, hargs, hvalue, hx⟩
    refine ⟨args, x, ?_, hvalue, (hagree r List.mem_cons_self).trans hx⟩
    rw [mapM_eq_of_agree fun v hv => hagree v (List.mem_cons_of_mem _ hv), hargs]
  · rintro s t rest hs hrest ⟨event, hstep⟩
    replace hrest : s.rest = op :: rest := hrest
    have hb : op.branch? = none := by
      cases hb : op.branch? with
      | none => rfl
      | some b =>
        obtain ⟨hresults, -⟩ := Op.branch?_eq_some hb
        rw [hr] at hresults
        cases hresults
    rw [step_next hrest hb hsuccs] at hstep
    obtain ⟨p, hp, heq⟩ := Option.map_eq_some_iff.mp hstep
    cases heq
    unfold perform at hp
    obtain ⟨args, hargs, hp⟩ := Option.bind_eq_some_iff.mp hp
    obtain ⟨⟨xs, w', choice⟩, hout, hp⟩ := Option.bind_eq_some_iff.mp hp
    dsimp only at hp
    split_ifs at hp
    cases hp
    obtain ⟨x, hvalue, hxs⟩ := heval args s.world _ hout
    refine ⟨args, x, ?_, hvalue, ?_⟩
    · refine Eq.trans (mapM_eq_of_agree fun v hv => ?_) hargs
      -- The operands are defined before the result, so defining it leaves them alone.
      have hne : v ≠ r := fun heq => hssa.not_available hdef hrop (heq ▸ hoperands v hv)
      show PVals.setAll _ _ _ v = _
      rw [hr]
      exact PVals.setAll_of_notMem fun hv => hne (List.mem_singleton.mp hv)
    · show PVals.setAll _ _ _ r = _
      rw [hr, show xs = [x] from hxs]
      exact Function.update_self ..

end Reachable

/-! ## Two functions in step -/

theorem mapM_subst {env env' : PVals} {repl : Value → Value} {vs : List Value}
    (h : ∀ v ∈ vs, env' (repl v) = env v) : (vs.map repl).mapM env' = vs.mapM env := by
  induction vs with
  | nil => rfl
  | cons v vs ih =>
    rw [List.map_cons, List.mapM_cons, List.mapM_cons, h v List.mem_cons_self,
      ih fun w hw => h w (List.mem_cons_of_mem _ hw)]

theorem length_of_mapM {α β : Type*} {f : α → Option β} {xs : List α} {ys : List β}
    (h : xs.mapM f = some ys) : ys.length = xs.length := by
  induction xs generalizing ys with
  | nil =>
    cases h
    rfl
  | cons x xs ih =>
    rw [List.mapM_cons] at h
    obtain ⟨y, -, h⟩ := Option.bind_eq_some_iff.mp h
    obtain ⟨ys', hys', h⟩ := Option.bind_eq_some_iff.mp h
    cases h
    rw [List.length_cons, List.length_cons, ih hys']

theorem taken_subst {env env' : PVals} {repl : Value → Value} {b : Branch}
    (h : ∀ v ∈ b.operands, env' (repl v) = env v) :
    (b.subst repl).taken env' = (b.taken env).map (Successor.subst repl) := by
  cases b with
  | br t => rfl
  | condBr cond t f =>
    simp only [Branch.subst, Branch.taken, h cond List.mem_cons_self, Option.map_map]
    congr 1
    funext bit
    cases bit <;> rfl

theorem perform_subst {env env' : PVals} {repl : Value → Value}
    (hrepl : ∀ x, (repl x).ty = x.ty) {op : Op} (h : ∀ v ∈ op.operands, env' (repl v) = env v)
    (w : M.World) : M.perform A (op.subst repl) env' w = M.perform A op env w := by
  unfold perform
  rw [Op.subst_operands, mapM_subst h, eval_subst hrepl, Op.subst_results]

/-- Where two states agree on the operands of the operation at hand, either
    neither takes a step, or both take the same. -/
theorem lockstep {g' : Region} {s' : M.State} {op : Op} {rest rest' : List Op}
    (repl : Value → Value) (hrepl : ∀ x, (repl x).ty = x.ty) (hs : s.rest = op :: rest)
    (hs' : s'.rest = op.subst repl :: rest') (hworld : s'.world = s.world)
    (hvals : ∀ v ∈ op.operands, s'.env (repl v) = s.env v) :
    (M.step A g s = none ∧ M.step A g' s' = none) ∨
    (op.succs = [] ∧ ∃ xs w event, xs.length = op.results.length ∧
      M.step A g s = some (⟨s.block, rest, PVals.setAll s.env op.results xs, w⟩, event) ∧
      M.step A g' s' = some (⟨s'.block, rest', PVals.setAll s'.env op.results xs, w⟩, event)) ∨
    ∃ d ∈ op.succs, ∃ xs ys w event, xs.length = op.results.length ∧
      ys.length = d.args.length ∧
      M.step A g s = some (⟨d.dest, (g.block d.dest).ops,
        (PVals.setAll s.env op.results xs).setAll (g.block d.dest).params ys, w⟩, event) ∧
      M.step A g' s' = some (⟨d.dest, (g'.block d.dest).ops,
        (PVals.setAll s'.env op.results xs).setAll (g'.block d.dest).params ys, w⟩, event) := by
  -- The arguments passed along an edge are the same on both sides.
  have hargs : ∀ d ∈ op.succs, (d.subst repl).args.mapM s'.env = d.args.mapM s.env := by
    intro d hd
    apply mapM_subst
    intro v hv
    exact hvals v (Op.mem_operands_of_succ hd hv)
  cases hb : op.branch? with
  | some b =>
    obtain ⟨hresults, hsuccs, hoperands, -⟩ := Op.branch?_eq_some hb
    have hb' : (op.subst repl).branch? = some (b.subst repl) := by
      rw [Op.branch?_subst, hb]
      rfl
    rw [step_branch hs hb, step_branch hs' hb',
      taken_subst fun v hv => hvals v (hoperands ▸ hv), hworld]
    cases htaken : b.taken s.env with
    | none => exact Or.inl ⟨rfl, rfl⟩
    | some d =>
      have hd : d ∈ op.succs := hsuccs ▸ Branch.mem_succs_of_taken htaken
      simp only [Option.bind_some, Option.map_some, enter, hargs d hd]
      cases hys : d.args.mapM s.env with
      | none => exact Or.inl ⟨rfl, rfl⟩
      | some ys =>
        refine Or.inr (Or.inr ⟨d, hd, [], ys, s.world, none, ?_, length_of_mapM hys, ?_, ?_⟩)
        · rw [hresults]
          rfl
        · rw [hresults]
          rfl
        · rw [hresults]
          rfl
  | none =>
    have hb' : (op.subst repl).branch? = none := by
      rw [Op.branch?_subst, hb]
      rfl
    have hperform : M.perform A (op.subst repl) s'.env s'.world = M.perform A op s.env s.world := by
      rw [hworld]
      exact perform_subst hrepl hvals _
    by_cases hsuccs : op.succs = []
    · have hsuccs' : (op.subst repl).succs = [] := by
        rw [Op.subst_succs, hsuccs]
        rfl
      rw [step_next hs hb hsuccs, step_next hs' hb' hsuccs', hperform, Op.subst_results,
        Op.shape_subst hrepl]
      cases hp : M.perform A op s.env s.world with
      | none => exact Or.inl ⟨rfl, rfl⟩
      | some p => exact Or.inr (Or.inl ⟨hsuccs, p.results, p.world, _, perform_length hp, rfl, rfl⟩)
    · have hsuccs' : (op.subst repl).succs ≠ [] := by
        rw [Op.subst_succs]
        exact fun h => hsuccs (List.map_eq_nil_iff.mp h)
      rw [step_jump hs hb hsuccs, step_jump hs' hb' hsuccs', hperform, Op.subst_results,
        Op.shape_subst hrepl, Op.subst_succs]
      cases hp : M.perform A op s.env s.world with
      | none => exact Or.inl ⟨rfl, rfl⟩
      | some p =>
        simp only [Option.bind_some, List.getElem?_map]
        cases hd : op.succs[p.choice]? with
        | none => exact Or.inl ⟨rfl, rfl⟩
        | some d =>
          have hmem : d ∈ op.succs := List.mem_of_getElem? hd
          simp only [Option.map_some, Option.bind_some, enter, hargs d hmem]
          cases hys : d.args.mapM s.env with
          | none => exact Or.inl ⟨rfl, rfl⟩
          | some ys =>
            exact Or.inr (Or.inr ⟨d, hmem, p.results, ys, p.world, _, perform_length hp,
              length_of_mapM hys, rfl, rfl⟩)

/-- The same for the same operation. -/
theorem lockstep_same {g' : Region} {s' : M.State} {op : Op} {rest rest' : List Op}
    (hs : s.rest = op :: rest) (hs' : s'.rest = op :: rest') (hworld : s'.world = s.world)
    (hvals : ∀ v ∈ op.operands, s'.env v = s.env v) :
    (M.step A g s = none ∧ M.step A g' s' = none) ∨
    (op.succs = [] ∧ ∃ xs w event, xs.length = op.results.length ∧
      M.step A g s = some (⟨s.block, rest, PVals.setAll s.env op.results xs, w⟩, event) ∧
      M.step A g' s' = some (⟨s'.block, rest', PVals.setAll s'.env op.results xs, w⟩, event)) ∨
    ∃ d ∈ op.succs, ∃ xs ys w event, xs.length = op.results.length ∧
      ys.length = d.args.length ∧
      M.step A g s = some (⟨d.dest, (g.block d.dest).ops,
        (PVals.setAll s.env op.results xs).setAll (g.block d.dest).params ys, w⟩, event) ∧
      M.step A g' s' = some (⟨d.dest, (g'.block d.dest).ops,
        (PVals.setAll s'.env op.results xs).setAll (g'.block d.dest).params ys, w⟩, event) :=
  lockstep id (fun _ => rfl) hs (hs'.trans (by rw [Op.subst_id])) hworld hvals

end CfgMachine

end Crabbit.Llvm
