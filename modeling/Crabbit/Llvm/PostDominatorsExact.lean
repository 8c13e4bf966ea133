/-
  Crabbit.Llvm.PostDominatorsExact

  The queries on post-dominators are those of the paths to an exit, also where
  a block has no such path, and the computation ends.
-/

import Crabbit.Llvm.DominatorTreeExact
import Crabbit.Llvm.PostDominators

namespace Crabbit.Llvm

open Crabbit.Lib

/-! ## The iteration -/

section Iteration

variable {n entry fuel : Nat} {succs : Nat → List Nat} {order : List Nat}

theorem mem_seenPreds {v s : Nat} :
    v ∈ seenPreds n succs order s ↔ v < n ∧ s ∈ succs v ∧ v ∈ order ∧ s ∈ order := by
  simp only [seenPreds, List.mem_flatMap, List.mem_range, List.mem_map, List.mem_filter,
    decide_eq_true_eq]
  constructor
  · rintro ⟨v', hv, t, ⟨ht, rfl, hvo, hto⟩, rfl⟩
    exact ⟨hv, ht, hvo, hto⟩
  · rintro ⟨hv, hs, hvo, hso⟩
    exact ⟨v, hv, s, ⟨hs, rfl, hvo, hso⟩, rfl⟩

/-- From a candidate on, the processed predecessors are met with it. -/
theorem foldlM_meetPred_some {idom : Nat → Option Nat} {rpo : Nat → Nat} (preds : List Nat)
    (cur : Nat) : preds.foldlM (meetPred fuel idom rpo) (some cur) =
      ((preds.filter fun p => (idom p).isSome).foldlM (intersect idom rpo fuel) cur).map some := by
  induction preds generalizing cur with
  | nil => rfl
  | cons p preds ih =>
    rw [List.foldlM_cons, meetPred]
    by_cases hp : (idom p).isSome = true
    · rw [if_pos hp, List.filter_cons, if_pos hp, List.foldlM_cons]
      cases intersect idom rpo fuel cur p with
      | none => rfl
      | some next => exact ih next
    · rw [if_neg hp, List.filter_cons, if_neg hp]
      exact ih cur

/-- The first processed predecessor is the first candidate. -/
theorem foldlM_meetPred_none {idom : Nat → Option Nat} {rpo : Nat → Nat} {preds : List Nat}
    {p : Nat} {ps : List Nat} (h : (preds.filter fun p => (idom p).isSome) = p :: ps) :
    preds.foldlM (meetPred fuel idom rpo) none =
      (ps.foldlM (intersect idom rpo fuel) p).map some := by
  induction preds with
  | nil => cases h
  | cons q preds ih =>
    rw [List.foldlM_cons, meetPred]
    by_cases hq : (idom q).isSome = true
    · rw [List.filter_cons, if_pos hq] at h
      obtain ⟨rfl, rfl⟩ := List.cons.inj h
      rw [if_pos hq]
      exact foldlM_meetPred_some preds q
    · rw [List.filter_cons, if_neg hq] at h
      rw [if_neg hq]
      exact ih h

variable (horder : ReversePostOrder (fun u v => v ∈ succs u) entry order)
include horder

theorem ranked_rpoNumber :
    Ranked (fun u v => v ∈ succs u) entry (rpoNumber order) order :=
  horder.ranked fun _ hv => if_pos hv

theorem rpoNumber_lt {v : Nat} (hv : Reaches (fun u v => v ∈ succs u) entry v) :
    rpoNumber order v < order.length := by
  have hmem := (horder.mem_iff v).mpr hv
  rw [rpoNumber, if_pos hmem]
  exact List.idxOf_lt_length_of_mem hmem

theorem iterativeStep_findsNearest (hbound : ∀ v ∈ order, v < n)
    (hfuel : 2 * order.length < fuel) :
    FindsNearest (fun u v => v ∈ succs u) entry (rpoNumber order)
      (iterativeStep fuel (seenPreds n succs order) (rpoNumber order)) := by
  intro idom changed v h hv _ hpred
  have hlt : ∀ a, (idom a).isSome → rpoNumber order a < order.length := fun a ha =>
    rpoNumber_lt horder (h.reaches_of_isSome ha)
  have hmeet : ∀ a b, (idom a).isSome → (idom b).isSome →
      ∃ z, intersect idom (rpoNumber order) fuel a b = some z ∧
        Meets (fun u v => v ∈ succs u) entry idom a b z := by
    intro a b ha hb
    have hla := hlt a ha
    have hlb := hlt b hb
    exact exists_intersect (ranked_rpoNumber horder) h ha hb (by omega)
  have hmem : ∀ q, q ∈ (seenPreds n succs order v).filter (fun p => (idom p).isSome) ↔
      v ∈ succs q ∧ (idom q).isSome := by
    intro q
    rw [List.mem_filter, mem_seenPreds]
    constructor
    · rintro ⟨⟨-, hs, -, -⟩, hq⟩
      exact ⟨hs, hq⟩
    · rintro ⟨hs, hq⟩
      have hqo := (horder.mem_iff q).mpr (h.reaches_of_isSome hq)
      exact ⟨⟨hbound q hqo, hs, hqo, (horder.mem_iff v).mpr hv⟩, hq⟩
  cases hfilter : (seenPreds n succs order v).filter fun p => (idom p).isSome with
  | nil =>
    obtain ⟨u, hu⟩ := hpred
    have hnil := (hmem u).mpr hu
    rw [hfilter] at hnil
    exact absurd hnil List.not_mem_nil
  | cons p ps =>
    rw [hfilter] at hmem
    obtain ⟨z, hz, hfold⟩ := exists_nearest hmeet hmem
    refine ⟨z, hz, ?_⟩
    rw [iterativeStep, foldlM_meetPred_none hfilter, hfold]
    refine congrArg some ?_
    rw [setIdom]
    by_cases hsame : idom v = some z
    · rw [if_neg (not_not.mpr hsame), decide_eq_false (not_not.mpr hsame), Bool.or_false, ← hsame,
        Function.update_eq_self]
    · rw [if_pos hsame, decide_eq_true hsame, Bool.or_true]

end Iteration

/-- The program ends on any graph of `n` nodes; the entry has its own candidate
    taken away. -/
theorem exists_iterativeIdoms {n entry : Nat} {succs : Nat → List Nat} (hentry : entry < n)
    (hclosed : ∀ v < n, ∀ s ∈ succs v, s < n) :
    ∃ bound idom order,
      (∀ fuel > bound, iterativeIdoms fuel n entry succs =
        some (Function.update idom entry none, order)) ∧
      (∀ v, v ∈ order ↔ Reaches (fun u v => v ∈ succs u) entry v) ∧
      IsIdom (fun u v => v ∈ succs u) entry idom := by
  have hrange : ∀ v ∈ List.range n, ∀ s ∈ succs v, s ∈ List.range n := fun v hv s hs =>
    List.mem_range.mpr (hclosed v (List.mem_range.mp hv) s hs)
  obtain ⟨order, hsearch, horder⟩ :=
    exists_reversePostOrder List.nodup_range hrange (List.mem_range.mpr hentry)
  have hbound : ∀ v ∈ order, v < n := by
    intro v hv
    obtain ⟨visited, hwalk⟩ := (horder.mem_iff v).mp hv
    clear hv
    induction hwalk with
    | entry => exact hentry
    | step _ he ih => exact hclosed _ ih _ he
  obtain ⟨rounds, hrounds⟩ := exists_idomLoop (ranked_rpoNumber horder)
  have hrun : ∀ fuel > max rounds (2 * order.length), ∃ idom,
      idomLoop (iterativeStep fuel (seenPreds n succs order) (rpoNumber order)) order.tail fuel
        (startIdom entry) = some idom ∧ IsIdom (fun u v => v ∈ succs u) entry idom := by
    intro fuel hfuel
    obtain ⟨idom, hloop, htree⟩ := hrounds _ (iterativeStep_findsNearest horder hbound
      (by omega : 2 * order.length < fuel))
    exact ⟨idom, hloop fuel (by omega), htree⟩
  obtain ⟨idom, -, htree⟩ := hrun _ (Nat.lt_succ_self _)
  refine ⟨max (stepsLeft succs (List.range n) []) (max rounds (2 * order.length)), idom, order,
    fun fuel hfuel => ?_, horder.mem_iff, htree⟩
  obtain ⟨idom', hloop, htree'⟩ := hrun fuel (by omega)
  rw [iterativeIdoms, hsearch fuel (by omega)]
  show Option.map _ (idomLoop _ order.tail fuel (startIdom entry)) = _
  rw [hloop, htree'.unique htree]
  rfl

/-! ## Paths to an exit -/

namespace RegionCfg

/-- A path from a block to a block without successors, with the blocks on it. -/
inductive ExitPath (cfg : RegionCfg) : Nat → List Nat → Prop where
  | exit {b : Nat} : b < cfg.len → cfg.succsOf b = [] → ExitPath cfg b [b]
  | step {b s : Nat} {path : List Nat} :
      b < cfg.len → s ∈ cfg.succsOf b → ExitPath cfg s path → ExitPath cfg b (b :: path)

def ReachesExit (cfg : RegionCfg) (b : Nat) : Prop := ∃ path, cfg.ExitPath b path

/-- Every path from `b` to an exit passes through `a`. -/
def PostDominates (cfg : RegionCfg) (a b : Nat) : Prop := ∀ path, cfg.ExitPath b path → a ∈ path

/-- An edge of the reversed graph. -/
def RevEdge (cfg : RegionCfg) (u v : Nat) : Prop := v ∈ cfg.revSuccs u

variable {cfg : RegionCfg}

theorem ExitPath.lt {b : Nat} {path : List Nat} (h : cfg.ExitPath b path) : b < cfg.len := by
  cases h with
  | exit hb => exact hb
  | step hb => exact hb

theorem ExitPath.lt_of_mem {a b : Nat} {path : List Nat} (h : cfg.ExitPath b path)
    (ha : a ∈ path) : a < cfg.len := by
  induction h with
  | exit hb _ => exact List.mem_singleton.mp ha ▸ hb
  | step hb _ _ ih =>
    rcases List.mem_cons.mp ha with rfl | ha
    · exact hb
    · exact ih ha

theorem revEdge_iff {u v : Nat} : cfg.RevEdge u v ↔
    (v < cfg.len ∧ u ∈ cfg.succsOf v) ∨ (u = cfg.len ∧ v < cfg.len ∧ cfg.succsOf v = []) := by
  rw [RevEdge, revSuccs, List.mem_append]
  refine or_congr ?_ ?_
  · simp only [List.mem_flatMap, List.mem_range, List.mem_map, List.mem_filter, decide_eq_true_eq]
    constructor
    · rintro ⟨v', hv, t, ⟨ht, rfl⟩, rfl⟩
      exact ⟨hv, ht⟩
    · rintro ⟨hv, hu⟩
      exact ⟨v, hv, u, ⟨hu, rfl⟩, rfl⟩
  · by_cases hu : u = cfg.len
    · rw [if_pos hu, exitIndices, List.mem_filter, List.mem_range, decide_eq_true_eq]
      exact (and_iff_right hu).symm
    · rw [if_neg hu]
      exact iff_of_false List.not_mem_nil fun h => hu h.1

/-- The walks from the virtual exit are the paths to an exit, read backwards. -/
theorem walk_revEdge {v : Nat} {visited : List Nat} (h : Walk cfg.RevEdge cfg.len v visited) :
    (v = cfg.len ∧ visited = [cfg.len]) ∨
      ∃ path, cfg.ExitPath v path ∧ visited = path ++ [cfg.len] := by
  induction h with
  | entry => exact .inl ⟨rfl, rfl⟩
  | @step u v visited _ he ih =>
    refine .inr ?_
    rcases revEdge_iff.mp he with ⟨hv, hu⟩ | ⟨rfl, hv, hexit⟩
    · rcases ih with ⟨hulen, -⟩ | ⟨path, hpath, rfl⟩
      · have := cfg.succsOf_lt hu
        omega
      · exact ⟨v :: path, .step hv hu hpath, rfl⟩
    · rcases ih with ⟨-, rfl⟩ | ⟨path, hpath, -⟩
      · exact ⟨[v], .exit hv hexit, rfl⟩
      · exact absurd hpath.lt (Nat.lt_irrefl _)

theorem ExitPath.walk {b : Nat} {path : List Nat} (h : cfg.ExitPath b path) :
    Walk cfg.RevEdge cfg.len b (path ++ [cfg.len]) := by
  induction h with
  | exit hb hexit => exact Walk.entry.step (revEdge_iff.mpr (.inr ⟨rfl, hb, hexit⟩))
  | step hb hs _ ih => exact ih.step (revEdge_iff.mpr (.inl ⟨hb, hs⟩))

theorem reaches_revEdge_iff {b : Nat} (hb : b < cfg.len) :
    Reaches cfg.RevEdge cfg.len b ↔ cfg.ReachesExit b := by
  constructor
  · rintro ⟨visited, hwalk⟩
    rcases walk_revEdge hwalk with ⟨rfl, -⟩ | ⟨path, hpath, -⟩
    · exact absurd hb (Nat.lt_irrefl _)
    · exact ⟨path, hpath⟩
  · rintro ⟨path, hpath⟩
    exact ⟨_, hpath.walk⟩

theorem dominates_revEdge_iff {a b : Nat} (ha : a < cfg.len) (hb : b < cfg.len) :
    Dominates cfg.RevEdge cfg.len a b ↔ cfg.PostDominates a b := by
  constructor
  · intro h path hpath
    rcases List.mem_append.mp (h _ hpath.walk) with hmem | hmem
    · exact hmem
    · exact absurd (List.mem_singleton.mp hmem) (Nat.ne_of_lt ha)
  · intro h visited hwalk
    rcases walk_revEdge hwalk with ⟨rfl, -⟩ | ⟨path, hpath, rfl⟩
    · exact absurd hb (Nat.lt_irrefl _)
    · exact List.mem_append_left _ (h path hpath)

/-- Another block that post-dominates, and that all others do. -/
def ImmediatelyPostDominates (cfg : RegionCfg) (z b : Nat) : Prop :=
  z ≠ b ∧ cfg.PostDominates z b ∧ ∀ d, d ≠ b → cfg.PostDominates d b → cfg.PostDominates d z

theorem PostDominates.lt {a b : Nat} (h : cfg.PostDominates a b) (hb : cfg.ReachesExit b) :
    a < cfg.len := by
  obtain ⟨path, hpath⟩ := hb
  exact hpath.lt_of_mem (h path hpath)

/-- Among blocks that is what the immediate dominators of the reversed graph are. -/
theorem immediatelyDominates_revEdge_iff {z b : Nat} (hz : z < cfg.len) (hb : cfg.ReachesExit b) :
    ImmediatelyDominates cfg.RevEdge cfg.len z b ↔ cfg.ImmediatelyPostDominates z b := by
  have hblt : b < cfg.len := hb.elim fun _ hpath => hpath.lt
  refine and_congr_right fun _ => and_congr (dominates_revEdge_iff hz hblt) ?_
  constructor
  · intro hall d hne hd
    have hdlt := hd.lt hb
    exact (dominates_revEdge_iff hdlt hz).mp
      (hall d hne ((dominates_revEdge_iff hdlt hblt).mpr hd))
  · intro hall d hne hd
    by_cases hdlt : d < cfg.len
    · exact (dominates_revEdge_iff hdlt hz).mpr
        (hall d hne ((dominates_revEdge_iff hdlt hblt).mp hd))
    · -- only the virtual exit is no block
      obtain ⟨path, hpath⟩ := hb
      rcases List.mem_append.mp (hd _ hpath.walk) with hmem | hmem
      · exact absurd (hpath.lt_of_mem hmem) hdlt
      · rw [List.mem_singleton.mp hmem]
        exact entry_dominates z

end RegionCfg

/-! ## The queries -/

section Queries

open RegionCfg

variable {cfg : RegionCfg} {idom : Nat → Option Nat} {order : List Nat}
  (hidom : IsIdom cfg.RevEdge cfg.len idom)

/-- The tree made of the immediate dominators of the reversed graph. -/
def PostDomTree.ofIdoms (cfg : RegionCfg) (idom : Nat → Option Nat) (seen : List Nat) :
    PostDomTree where
  ipdom b := (Function.update idom cfg.len none b).filter (· ≠ cfg.len)
  reachesExit b := decide (b ∈ seen)

theorem ipdom_ofIdoms {b z : Nat} (hb : b < cfg.len) :
    (PostDomTree.ofIdoms cfg idom order).ipdom b = some z ↔ idom b = some z ∧ z ≠ cfg.len := by
  show (Function.update idom cfg.len none b).filter _ = some z ↔ _
  rw [Function.update_of_ne (Nat.ne_of_lt hb), Option.filter_eq_some_iff, decide_eq_true_iff]

include hidom

theorem ipdom_eq_some_iff {b z : Nat} (hb : b < cfg.len) :
    (PostDomTree.ofIdoms cfg idom order).ipdom b = some z ↔
      cfg.ReachesExit b ∧ cfg.ImmediatelyPostDominates z b := by
  rw [ipdom_ofIdoms hb, hidom.eq_some_iff (Nat.ne_of_lt hb), reaches_revEdge_iff hb, and_assoc]
  refine and_congr_right fun hreach => ?_
  constructor
  · rintro ⟨himm, hz⟩
    have hzlt : z < cfg.len := by
      obtain ⟨path, hpath⟩ := hreach
      rcases List.mem_append.mp (himm.2.1 _ hpath.walk) with hmem | hmem
      · exact hpath.lt_of_mem hmem
      · exact absurd (List.mem_singleton.mp hmem) hz
    exact (immediatelyDominates_revEdge_iff hzlt hreach).mp himm
  · intro himm
    have hzlt := himm.2.1.lt hreach
    exact ⟨(immediatelyDominates_revEdge_iff hzlt hreach).mpr himm, Nat.ne_of_lt hzlt⟩

/-- A block that another post-dominates has an immediate post-dominator. -/
theorem exists_ipdom {a b : Nat} (hb : cfg.ReachesExit b) (hne : a ≠ b)
    (hpost : cfg.PostDominates a b) :
    ∃ z, (PostDomTree.ofIdoms cfg idom order).ipdom b = some z := by
  have hblt : b < cfg.len := hb.elim fun _ hpath => hpath.lt
  have halt := hpost.lt hb
  have hreach := (reaches_revEdge_iff hblt).mpr hb
  obtain ⟨z, hz⟩ := Option.isSome_iff_exists.mp ((hidom.isSome_iff b).mpr hreach)
  refine ⟨z, (ipdom_ofIdoms hblt).mpr ⟨hz, ?_⟩⟩
  rintro rfl
  have habove := (hidom.immediate b _ hz (Nat.ne_of_lt hblt)).2.2 a hne
    ((dominates_revEdge_iff halt hblt).mpr hpost)
  exact Nat.ne_of_lt halt habove.eq_entry

/-- The loop climbs to the block or past all that post-dominates the other. -/
theorem climbTo_eq {a fuel cur : Nat} {path : List Nat} (hpath : cfg.ExitPath cur path)
    (hfuel : path.length < fuel) {answer : Bool}
    (hanswer : answer = true ↔ cfg.PostDominates a cur) :
    (PostDomTree.ofIdoms cfg idom order).climbTo a fuel cur = some answer := by
  induction fuel generalizing cur path with
  | zero => exact absurd hfuel (Nat.not_lt_zero _)
  | succ fuel ih =>
    rw [PostDomTree.climbTo]
    by_cases hcur : cur = a
    · have hself : cfg.PostDominates a cur :=
        hcur ▸ (dominates_revEdge_iff hpath.lt hpath.lt).mp (Dominates.refl cur)
      rw [if_pos hcur, hanswer.mpr hself]
    · rw [if_neg hcur]
      cases hz : (PostDomTree.ofIdoms cfg idom order).ipdom cur with
      | none =>
        have hnot : ¬ cfg.PostDominates a cur := by
          intro hpost
          obtain ⟨z, hsome⟩ := exists_ipdom hidom ⟨path, hpath⟩ (fun heq => hcur heq.symm) hpost
          rw [hz] at hsome
          cases hsome
        rw [Bool.eq_false_iff.mpr fun htrue => hnot (hanswer.mp htrue)]
      | some z =>
        obtain ⟨hreach, hne, hpost, hall⟩ := (ipdom_eq_some_iff hidom hpath.lt).mp hz
        have hzlt := hpost.lt hreach
        have hzdom := (dominates_revEdge_iff hzlt hpath.lt).mpr hpost
        -- a path from the immediate post-dominator is shorter
        obtain ⟨visited, hvisited, -, -, hshort⟩ := hpath.walk.visit (hzdom _ hpath.walk)
        rcases walk_revEdge hvisited with ⟨hzlen, -⟩ | ⟨path', hpath', rfl⟩
        · exact absurd hzlen (Nat.ne_of_lt hzlt)
        · have hlt := hshort hne
          rw [List.length_append, List.length_append] at hlt
          refine ih hpath' (by omega) (hanswer.trans ?_)
          constructor
          · exact hall a fun heq => hcur heq.symm
          · intro haz
            have halt := haz.lt ⟨path', hpath'⟩
            exact (dominates_revEdge_iff halt hpath.lt).mp
              (((dominates_revEdge_iff halt hzlt).mpr haz).trans hzdom)

omit hidom in
theorem ancestor_of_climbTo {tree : PostDomTree} {a fuel cur : Nat}
    (h : tree.climbTo a fuel cur = some true) : Ancestor tree.ipdom a cur := by
  induction fuel generalizing cur with
  | zero => cases h
  | succ fuel ih =>
    rw [PostDomTree.climbTo] at h
    by_cases hcur : cur = a
    · rw [hcur]
      exact .refl
    · rw [if_neg hcur] at h
      cases hz : tree.ipdom cur with
      | none =>
        rw [hz] at h
        cases h
      | some z =>
        rw [hz] at h
        exact .head hz (ih h)

/-- The ancestors of a block are what post-dominates it. -/
theorem ancestor_ipdom_iff {a b : Nat} (hb : cfg.ReachesExit b) :
    Ancestor (PostDomTree.ofIdoms cfg idom order).ipdom a b ↔ cfg.PostDominates a b := by
  have hblt : b < cfg.len := hb.elim fun _ hpath => hpath.lt
  constructor
  · intro h
    clear hb
    induction h using Relation.ReflTransGen.head_induction_on with
    | refl => exact (dominates_revEdge_iff hblt hblt).mp (Dominates.refl a)
    | @head b z hz hrest ih =>
      obtain ⟨hb, -, hpost, -⟩ := (ipdom_eq_some_iff hidom hblt).mp hz
      have hzlt := hpost.lt hb
      have hzdom := (dominates_revEdge_iff hzlt hblt).mpr hpost
      have haz := ih hzlt
      have hzr := hzdom.reaches ((reaches_revEdge_iff hblt).mpr hb)
      have halt := haz.lt ((reaches_revEdge_iff hzlt).mp hzr)
      exact (dominates_revEdge_iff halt hblt).mp
        (((dominates_revEdge_iff halt hzlt).mpr haz).trans hzdom)
  · intro hpost
    obtain ⟨path, hpath⟩ := hb
    exact ancestor_of_climbTo
      (climbTo_eq hidom hpath (Nat.lt_succ_self _) (iff_of_true rfl hpost))

end Queries

/-- One length bounds a path from every block that has one. -/
theorem exists_short_paths (cfg : RegionCfg) (n : Nat) : ∃ bound, ∀ b < n, cfg.ReachesExit b →
    ∃ path, cfg.ExitPath b path ∧ path.length ≤ bound := by
  induction n with
  | zero => exact ⟨0, fun b hb => absurd hb (Nat.not_lt_zero b)⟩
  | succ n ih =>
    obtain ⟨bound, hbound⟩ := ih
    by_cases hn : cfg.ReachesExit n
    · obtain ⟨path, hpath⟩ := hn
      refine ⟨max bound path.length, fun b hb hreach => ?_⟩
      rcases Nat.lt_succ_iff_lt_or_eq.mp hb with hlt | rfl
      · obtain ⟨path', hpath', hle⟩ := hbound b hlt hreach
        exact ⟨path', hpath', by omega⟩
      · exact ⟨path, hpath, by omega⟩
    · refine ⟨bound, fun b hb hreach => ?_⟩
      rcases Nat.lt_succ_iff_lt_or_eq.mp hb with hlt | rfl
      · exact hbound b hlt hreach
      · exact absurd hreach hn

/-- The computation ends on any graph, and so does every query on two blocks. -/
theorem exists_postDomTree (cfg : RegionCfg) : ∃ bound idom order,
    (∀ fuel > bound, PostDomTree.compute fuel cfg = some (.ofIdoms cfg idom order)) ∧
    IsIdom cfg.RevEdge cfg.len idom ∧
    ∀ b < cfg.len,
      ((PostDomTree.ofIdoms cfg idom order).reachesExit b = true ↔ cfg.ReachesExit b) ∧
      ∀ a < cfg.len, ∃ answer,
        (∀ fuel > bound,
          (PostDomTree.ofIdoms cfg idom order).postdominates fuel a b = some answer) ∧
        (answer = true ↔ cfg.ReachesExit b ∧ cfg.PostDominates a b) := by
  have hclosed : ∀ v < cfg.len + 1, ∀ s ∈ cfg.revSuccs v, s < cfg.len + 1 := by
    intro v _ s hs
    rcases RegionCfg.revEdge_iff.mp hs with ⟨hlt, -⟩ | ⟨-, hlt, -⟩
    · exact Nat.lt_succ_of_lt hlt
    · exact Nat.lt_succ_of_lt hlt
  obtain ⟨rounds, idom, order, hrun, hmem, hidom⟩ :=
    exists_iterativeIdoms (Nat.lt_succ_self cfg.len) hclosed
  obtain ⟨short, hshort⟩ := exists_short_paths cfg cfg.len
  have hreaches : ∀ b < cfg.len,
      ((PostDomTree.ofIdoms cfg idom order).reachesExit b = true ↔ cfg.ReachesExit b) :=
    fun b hb => (decide_eq_true_iff).trans ((hmem b).trans (RegionCfg.reaches_revEdge_iff hb))
  refine ⟨max rounds short, idom, order, fun fuel hfuel => ?_, hidom, fun b hb =>
    ⟨hreaches b hb, fun a ha => ?_⟩⟩
  · rw [PostDomTree.compute, hrun fuel (by omega)]
    rfl
  · by_cases hboth : cfg.ReachesExit a ∧ cfg.ReachesExit b
    · obtain ⟨hra, hrb⟩ := hboth
      obtain ⟨path, hpath, hle⟩ := hshort b hb hrb
      have hskip : ¬ ((PostDomTree.ofIdoms cfg idom order).reachesExit a = false ∨
          (PostDomTree.ofIdoms cfg idom order).reachesExit b = false) := by
        rw [(hreaches a ha).mpr hra, (hreaches b hb).mpr hrb]
        simp
      obtain ⟨answer, hanswer⟩ : ∃ answer : Bool, answer = true ↔ cfg.PostDominates a b := by
        by_cases hpost : cfg.PostDominates a b
        · exact ⟨true, iff_of_true rfl hpost⟩
        · exact ⟨false, iff_of_false Bool.false_ne_true hpost⟩
      refine ⟨answer, fun fuel hfuel => ?_, hanswer.trans (and_iff_right hrb).symm⟩
      rw [PostDomTree.postdominates, if_neg hskip]
      exact climbTo_eq hidom hpath (by omega) hanswer
    · have hskip : (PostDomTree.ofIdoms cfg idom order).reachesExit a = false ∨
          (PostDomTree.ofIdoms cfg idom order).reachesExit b = false := by
        rw [← Bool.not_eq_true, ← Bool.not_eq_true, hreaches a ha, hreaches b hb]
        exact not_and_or.mp hboth
      refine ⟨false, fun fuel _ => ?_, iff_of_false Bool.false_ne_true ?_⟩
      · rw [PostDomTree.postdominates, if_pos hskip]
      · -- what lies on a path to an exit reaches one
        rintro ⟨hrb, hpost⟩
        have hra : cfg.ReachesExit a := (RegionCfg.reaches_revEdge_iff ha).mp
          (((RegionCfg.dominates_revEdge_iff ha hb).mpr hpost).reaches
            ((RegionCfg.reaches_revEdge_iff hb).mpr hrb))
        exact hboth ⟨hra, hrb⟩

/-! ## Both trees -/

/-- Both computations end, on every graph, with the dominators of the paths: from
    the entry to a block for the one, from a block to an exit for the other. -/
theorem dominators_of_paths :
    (∀ g : RegionGraph, ∃ bound tree,
      (∀ fuel > bound, g.dominatorTree fuel = some tree) ∧
      (∀ b, b ∈ tree.blocks ↔ g.contains 0 ∧ Reaches g.Edge 0 b) ∧
      ∀ b ∈ tree.blocks,
        (∀ z, tree.immediateDominator b = some z ↔
          b ≠ 0 ∧ ImmediatelyDominates g.Edge 0 z b) ∧
        ∀ a, Ancestor tree.immediateDominator a b ↔ Dominates g.Edge 0 a b) ∧
    (∀ cfg : RegionCfg, ∃ bound tree,
      (∀ fuel > bound, PostDomTree.compute fuel cfg = some tree) ∧
      ∀ b < cfg.len,
        (tree.reachesExit b = true ↔ cfg.ReachesExit b) ∧
        (∀ z, tree.ipdom b = some z ↔ cfg.ReachesExit b ∧ cfg.ImmediatelyPostDominates z b) ∧
        (cfg.ReachesExit b → ∀ a, Ancestor tree.ipdom a b ↔ cfg.PostDominates a b) ∧
        ∀ a < cfg.len, ∃ answer, (∀ fuel > bound, tree.postdominates fuel a b = some answer) ∧
          (answer = true ↔ cfg.ReachesExit b ∧ cfg.PostDominates a b)) := by
  constructor
  · intro g
    by_cases hentry : g.contains 0
    · obtain ⟨bound, blocks, idoms, hrun, horder, hidom⟩ := exists_dominatorTree hentry
      refine ⟨bound, ⟨blocks, idoms⟩, hrun, fun b =>
        (horder.mem_iff b).trans (and_iff_right hentry).symm, fun b hb => ?_⟩
      have hreach := (horder.mem_iff b).mp hb
      refine ⟨fun z => ?_, fun a => ancestor_immediateDominator_iff hentry horder hidom hreach⟩
      exact (immediateDominator_eq_some_iff hentry horder hidom).trans (and_iff_right hreach)
    · obtain ⟨tree, hrun, hblocks⟩ := dominatorTree_of_empty hentry
      refine ⟨0, tree, fun fuel _ => hrun fuel, fun b => ?_, fun b hb => ?_⟩
      · rw [hblocks]
        exact iff_of_false List.not_mem_nil fun h => hentry h.1
      · rw [hblocks] at hb
        exact absurd hb List.not_mem_nil
  · intro cfg
    obtain ⟨bound, idom, order, hrun, hidom, hqueries⟩ := exists_postDomTree cfg
    exact ⟨bound, .ofIdoms cfg idom order, hrun, fun b hb => ⟨(hqueries b hb).1,
      fun z => ipdom_eq_some_iff hidom hb, fun hreach a => ancestor_ipdom_iff hidom hreach,
      (hqueries b hb).2⟩⟩

end Crabbit.Llvm
