/-
  Crabbit.Lib.DepthFirst

  Depth-first search: what holds of the nodes on its path, of those it has
  visited and of those it has left, and the reverse post-order it ends with.

  The path is a walk from the entry, so it holds whatever dominates its end:
  a node is left before all that dominate it, and comes after them in reverse
  post-order.
-/

import Crabbit.Lib.Dominance
import Crabbit.Lib.Worklist
import Mathlib.Data.List.Nodup
import Mathlib.Data.List.Pairwise

namespace Crabbit.Lib

section DepthFirst

variable {V : Type*}

/-! ## The search -/

/-- A search under way.  The path is given end first, and `left` has the node
    left last first, which is reverse post-order. -/
structure Search (edge : V → V → Prop) (entry : V) (path visited left : List V) : Prop where
  walk : ∀ v ∈ path.head?, Walk edge entry v path
  visited_iff : ∀ v, v ∈ visited ↔ v ∈ path ∨ v ∈ left
  nodup : (path ++ left).Nodup
  entry_visited : entry ∈ visited
  reaches : ∀ v ∈ left, Reaches edge entry v
  /-- The nodes next to what was left were visited. -/
  next : ∀ v ∈ left, ∀ s, edge v s → s ∈ visited
  order : left.Pairwise fun x y => ¬ Dominates edge entry y x
  /-- What was left before a node was left from another on the path. -/
  parent : ∀ before b after, left = before ++ b :: after → b ≠ entry →
    ∃ u, edge u b ∧ u ∈ visited ∧ u ∉ b :: after

namespace Search

variable {edge : V → V → Prop} {entry : V} {path visited left : List V}

theorem start (edge : V → V → Prop) (entry : V) : Search edge entry [entry] [entry] [] where
  walk := by
    intro v hv
    obtain rfl := Option.some.inj hv
    exact .entry
  visited_iff v := by rw [or_iff_left List.not_mem_nil]
  nodup := List.nodup_singleton entry
  entry_visited := List.mem_cons_self
  reaches v hv := absurd hv List.not_mem_nil
  next v hv := absurd hv List.not_mem_nil
  order := .nil
  parent before b after h := absurd (h ▸ List.mem_append_right _ List.mem_cons_self) List.not_mem_nil

/-- The path goes on to a node that was not visited. -/
theorem enter {v s : V} (h : Search edge entry (v :: path) visited left) (he : edge v s)
    (hs : s ∉ visited) : Search edge entry (s :: v :: path) (s :: visited) left where
  walk := by
    intro u hu
    obtain rfl := Option.some.inj hu
    exact (h.walk v rfl).step he
  visited_iff u := by rw [List.mem_cons, h.visited_iff u, List.mem_cons (l := v :: path), or_assoc]
  nodup := by
    rw [List.cons_append, List.nodup_cons]
    refine ⟨fun hmem => hs ((h.visited_iff s).mpr (List.mem_append.mp hmem)), h.nodup⟩
  entry_visited := List.mem_cons_of_mem _ h.entry_visited
  reaches := h.reaches
  next u hu t ht := List.mem_cons_of_mem _ (h.next u hu t ht)
  order := h.order
  parent before b after heq hb := by
    obtain ⟨u, hedge, hu, hnot⟩ := h.parent before b after heq hb
    exact ⟨u, hedge, List.mem_cons_of_mem _ hu, hnot⟩

/-- What dominates the end of the path is on the path. -/
theorem not_mem_left_of_dominates {a v : V} (h : Search edge entry (v :: path) visited left)
    (hdom : Dominates edge entry a v) : a ∉ left := by
  intro ha
  exact List.disjoint_of_nodup_append h.nodup (hdom _ (h.walk v rfl)) ha

/-- The end of the path is left when all nodes next to it were visited. -/
theorem leave {v : V} (h : Search edge entry (v :: path) visited left)
    (hnext : ∀ s, edge v s → s ∈ visited) : Search edge entry path visited (v :: left) where
  walk := by
    intro u hu
    cases h.walk v rfl with
    | entry => cases hu
    | @step w _ _ hwalk _ =>
      cases hwalk with
      | entry =>
        obtain rfl := Option.some.inj hu
        exact .entry
      | step hwalk he =>
        obtain rfl := Option.some.inj hu
        exact hwalk.step he
  visited_iff u := by
    rw [h.visited_iff u, List.mem_cons, List.mem_cons, or_assoc, or_left_comm]
  nodup := List.nodup_middle.mpr h.nodup
  entry_visited := h.entry_visited
  reaches := by
    intro u hu
    rcases List.mem_cons.mp hu with rfl | hu
    · exact ⟨_, h.walk _ rfl⟩
    · exact h.reaches u hu
  next := by
    intro u hu
    rcases List.mem_cons.mp hu with rfl | hu
    · exact hnext
    · exact h.next u hu
  order := .cons (fun a ha hdom => h.not_mem_left_of_dominates hdom ha) h.order
  parent := by
    intro before b after heq hb
    cases before with
    | cons w before =>
      rw [List.cons_append, List.cons.injEq] at heq
      exact h.parent before b after heq.2 hb
    | nil =>
      rw [List.nil_append, List.cons.injEq] at heq
      obtain ⟨rfl, rfl⟩ := heq
      -- The node before the end of the path.
      cases h.walk v rfl with
      | entry => exact absurd rfl hb
      | @step u _ _ hwalk he =>
        refine ⟨u, he, (h.visited_iff u).mpr (Or.inl (List.mem_cons_of_mem _ hwalk.mem)), ?_⟩
        have hnodup := h.nodup
        rw [List.cons_append, List.nodup_cons, List.mem_append, not_or] at hnodup
        intro hmem
        rcases List.mem_cons.mp hmem with rfl | hmem
        · exact hnodup.1.1 hwalk.mem
        · exact List.disjoint_of_nodup_append hnodup.2 hwalk.mem hmem

end Search

/-! ## Reverse post-order -/

/-- A list of the reachable nodes with every node after what dominates it, and
    every node but the entry after a predecessor. -/
structure ReversePostOrder (edge : V → V → Prop) (entry : V) (order : List V) : Prop where
  nodup : order.Nodup
  mem_iff : ∀ v, v ∈ order ↔ Reaches edge entry v
  dominators : order.Pairwise fun x y => ¬ Dominates edge entry y x
  parent : ∀ before b after, order = before ++ b :: after → b ≠ entry → ∃ u ∈ before, edge u b

variable {edge : V → V → Prop} {entry : V} {order : List V}

/-- A search that has left its path ends with a reverse post-order. -/
theorem Search.reversePostOrder {visited : List V} (h : Search edge entry [] visited order) :
    ReversePostOrder edge entry order where
  nodup := h.nodup
  mem_iff := by
    have hvisited : ∀ v, v ∈ visited ↔ v ∈ order := fun v =>
      (h.visited_iff v).trans (or_iff_right List.not_mem_nil)
    refine fun v => ⟨h.reaches v, ?_⟩
    rintro ⟨path, hwalk⟩
    induction hwalk with
    | entry => exact (hvisited _).mp h.entry_visited
    | step _ he ih => exact (hvisited _).mp (h.next _ ih _ he)
  dominators := h.order
  parent := by
    intro before b after heq hb
    obtain ⟨u, he, hu, hnot⟩ := h.parent before b after heq hb
    have hmem : u ∈ order := ((h.visited_iff u).mp hu).resolve_left List.not_mem_nil
    rw [heq] at hmem
    exact ⟨u, (List.mem_append.mp hmem).resolve_right hnot, he⟩

namespace ReversePostOrder

theorem head_eq (h : ReversePostOrder edge entry order) : order.head? = some entry := by
  have hmem : entry ∈ order := (h.mem_iff entry).mpr ⟨_, .entry⟩
  cases order with
  | nil => exact absurd hmem List.not_mem_nil
  | cons v order =>
    rcases List.mem_cons.mp hmem with rfl | hmem
    · rfl
    · exact absurd (entry_dominates v) ((List.pairwise_cons.mp h.dominators).1 entry hmem)

/-- What dominates a node comes before it. -/
theorem idxOf_lt [DecidableEq V] (h : ReversePostOrder edge entry order) {a b : V}
    (hb : Reaches edge entry b) (hdom : Dominates edge entry a b) (hne : a ≠ b) :
    order.idxOf a < order.idxOf b := by
  have hbmem := (h.mem_iff b).mpr hb
  have hamem := (h.mem_iff a).mpr (hdom.reaches hb)
  have halt := List.idxOf_lt_length_of_mem hamem
  have hblt := List.idxOf_lt_length_of_mem hbmem
  rcases Nat.lt_trichotomy (order.idxOf a) (order.idxOf b) with hlt | heq | hgt
  · exact hlt
  · exact absurd ((List.idxOf_inj hamem).mp heq) hne
  · have hpair := List.pairwise_iff_getElem.mp h.dominators _ _ hblt halt hgt
    rw [List.getElem_idxOf, List.getElem_idxOf] at hpair
    exact absurd hdom hpair

end ReversePostOrder

/-! ## With a stack of its own -/

section Stack

variable [DecidableEq V] (succs : V → List V)

/-- The loop of a search that keeps the index of the next successor beside each
    node of its path. -/
def depthFirst : Nat → List (V × Nat) → List V → List V → Option (List V)
  | 0, _, _, _ => none
  | _ + 1, [], _, left => some left
  | fuel + 1, (v, i) :: stack, visited, left =>
    match (succs v)[i]? with
    | some s =>
      if s ∈ visited then depthFirst fuel ((v, i + 1) :: stack) visited left
      else depthFirst fuel ((s, 0) :: (v, i + 1) :: stack) (s :: visited) left
    | none => depthFirst fuel stack visited (v :: left)

variable {succs}

/-- The successors before the index of a node were visited. -/
def Scanned (succs : V → List V) (visited : List V) (stack : List (V × Nat)) : Prop :=
  ∀ frame ∈ stack, ∀ j < frame.2, ∀ s, (succs frame.1)[j]? = some s → s ∈ visited

theorem depthFirst_sound {entry : V} {fuel : Nat} {stack : List (V × Nat)}
    {visited left result : List V} (h : depthFirst succs fuel stack visited left = some result)
    (hsearch : Search (fun u v => v ∈ succs u) entry (stack.map Prod.fst) visited left)
    (hscan : Scanned succs visited stack) :
    ReversePostOrder (fun u v => v ∈ succs u) entry result := by
  induction fuel generalizing stack visited left with
  | zero => cases h
  | succ fuel ih =>
    cases stack with
    | nil =>
      rw [depthFirst] at h
      obtain rfl := Option.some.inj h
      exact hsearch.reversePostOrder
    | cons frame stack =>
      obtain ⟨v, i⟩ := frame
      obtain ⟨hframe, hrest⟩ := List.forall_mem_cons.mp hscan
      rw [depthFirst] at h
      cases hi : (succs v)[i]? with
      | none =>
        rw [hi] at h
        refine ih h (hsearch.leave fun s hs => ?_) hrest
        obtain ⟨j, hj, rfl⟩ := List.getElem_of_mem hs
        exact hframe j (Nat.lt_of_lt_of_le hj (List.getElem?_eq_none_iff.mp hi)) _
          (List.getElem?_eq_getElem hj)
      | some s =>
        rw [hi] at h
        -- The successor at the index is visited now.
        have hscan' : ∀ visited', s ∈ visited' → (∀ u ∈ visited, u ∈ visited') →
            Scanned succs visited' ((v, i + 1) :: stack) := by
          intro visited' hs hsub frame hmem j hj t ht
          rcases List.mem_cons.mp hmem with rfl | hmem
          · rcases Nat.lt_succ_iff_lt_or_eq.mp hj with hlt | rfl
            · exact hsub t (hframe j hlt t ht)
            · obtain rfl := Option.some.inj (hi.symm.trans ht)
              exact hs
          · exact hsub t (hrest frame hmem j hj t ht)
        by_cases hs : s ∈ visited
        · simp only [if_pos hs] at h
          exact ih h hsearch (hscan' visited hs fun _ hu => hu)
        · simp only [if_neg hs] at h
          refine ih h (hsearch.enter (List.mem_of_getElem? hi) hs) ?_
          intro frame hmem
          rcases List.mem_cons.mp hmem with rfl | hmem
          · exact fun j hj => absurd hj (Nat.not_lt_zero j)
          · exact hscan' (s :: visited) List.mem_cons_self
              (fun _ hu => List.mem_cons_of_mem _ hu) frame hmem

/-! ### Termination -/

/-- More fuel changes nothing. -/
theorem depthFirst_le {fuel fuel' : Nat} (hle : fuel ≤ fuel') {stack : List (V × Nat)}
    {visited left result : List V} (h : depthFirst succs fuel stack visited left = some result) :
    depthFirst succs fuel' stack visited left = some result := by
  induction fuel generalizing fuel' stack visited left with
  | zero => cases h
  | succ fuel ih =>
    obtain ⟨fuel', rfl⟩ : ∃ n, fuel' = n + 1 := ⟨fuel' - 1, by omega⟩
    have hle' : fuel ≤ fuel' := by omega
    cases stack with
    | nil => exact h
    | cons frame stack =>
      obtain ⟨v, i⟩ := frame
      rw [depthFirst] at h ⊢
      cases hi : (succs v)[i]? with
      | none =>
        rw [hi] at h
        exact ih hle' h
      | some s =>
        rw [hi] at h
        by_cases hs : s ∈ visited
        · simp only [if_pos hs] at h ⊢
          exact ih hle' h
        · simp only [if_neg hs] at h ⊢
          exact ih hle' h

/-- The steps that the nodes on the path still take. -/
def framesLeft (succs : V → List V) (stack : List (V × Nat)) : Nat :=
  (stack.map fun frame => (succs frame.1).length + 1 - frame.2).sum

/-- The steps of the nodes not visited yet: one for each successor and one to
    leave. -/
def stepsLeft (succs : V → List V) (univ visited : List V) : Nat :=
  pushes (fun v => some (v :: succs v)) univ visited

/-- Fuel for every step is enough. -/
theorem exists_depthFirst {univ : List V} (hnodup : univ.Nodup)
    (hclosed : ∀ v ∈ univ, ∀ s ∈ succs v, s ∈ univ) {fuel : Nat} {stack : List (V × Nat)}
    {visited left : List V}
    (hstack : ∀ frame ∈ stack, frame.1 ∈ univ ∧ frame.2 ≤ (succs frame.1).length)
    (hfuel : framesLeft succs stack + stepsLeft succs univ visited < fuel) :
    ∃ result, depthFirst succs fuel stack visited left = some result := by
  induction fuel generalizing stack visited left with
  | zero => omega
  | succ fuel ih =>
    cases stack with
    | nil => exact ⟨left, rfl⟩
    | cons frame stack =>
      obtain ⟨v, i⟩ := frame
      obtain ⟨⟨hv, hle⟩, hrest⟩ := List.forall_mem_cons.mp hstack
      rw [framesLeft, List.map_cons, List.sum_cons] at hfuel
      change (succs v).length + 1 - i + framesLeft succs stack + _ < _ at hfuel
      change i ≤ (succs v).length at hle
      rw [depthFirst]
      cases hi : (succs v)[i]? with
      | none => exact ih hrest (by omega)
      | some s =>
        have hlt : i < (succs v).length := by
          by_contra hge
          rw [List.getElem?_eq_none (Nat.le_of_not_lt hge)] at hi
          cases hi
        have hframe : framesLeft succs ((v, i + 1) :: stack) =
            (succs v).length - i + framesLeft succs stack := by
          rw [framesLeft, List.map_cons, List.sum_cons]
          show (succs v).length + 1 - (i + 1) + _ = _
          rw [Nat.add_sub_add_right]
          rfl
        have hstack' : ∀ frame ∈ (v, i + 1) :: stack,
            frame.1 ∈ univ ∧ frame.2 ≤ (succs frame.1).length :=
          List.forall_mem_cons.mpr ⟨⟨hv, hlt⟩, hrest⟩
        by_cases hs : s ∈ visited
        · simp only [if_pos hs]
          exact ih hstack' (by omega)
        · simp only [if_neg hs]
          have hsu := hclosed v hv s (List.mem_of_getElem? hi)
          -- The steps of `s` move from those of the unvisited nodes to its frame.
          have hsteps : stepsLeft succs univ visited =
              (succs s).length + 1 + stepsLeft succs univ (s :: visited) :=
            pushes_cons hnodup hsu hs
          have hnew : framesLeft succs ((s, 0) :: (v, i + 1) :: stack) =
              (succs s).length + 1 + framesLeft succs ((v, i + 1) :: stack) := by
            rw [framesLeft, List.map_cons, List.sum_cons]
            rfl
          exact ih (List.forall_mem_cons.mpr ⟨⟨hsu, Nat.zero_le _⟩, hstack'⟩) (by omega)

/-- A search from one node ends, with a reverse post-order. -/
theorem exists_reversePostOrder {univ : List V} (hnodup : univ.Nodup)
    (hclosed : ∀ v ∈ univ, ∀ s ∈ succs v, s ∈ univ) {entry : V} (hentry : entry ∈ univ) :
    ∃ result, (∀ fuel > stepsLeft succs univ [],
        depthFirst succs fuel [(entry, 0)] [entry] [] = some result) ∧
      ReversePostOrder (fun u v => v ∈ succs u) entry result := by
  have hsteps : stepsLeft succs univ [] = (succs entry).length + 1 + stepsLeft succs univ [entry] :=
    pushes_cons hnodup hentry List.not_mem_nil
  have hframe : framesLeft succs [(entry, 0)] = (succs entry).length + 1 := by
    rw [framesLeft, List.map_singleton, List.sum_singleton]
    rfl
  have hstack : ∀ frame ∈ [(entry, 0)], frame.1 ∈ univ ∧ frame.2 ≤ (succs frame.1).length := by
    intro frame hmem
    obtain rfl := List.mem_singleton.mp hmem
    exact ⟨hentry, Nat.zero_le _⟩
  have hfuel : framesLeft succs [(entry, 0)] + stepsLeft succs univ [entry] <
      stepsLeft succs univ [] + 1 := by omega
  obtain ⟨result, h⟩ : ∃ result,
      depthFirst succs (stepsLeft succs univ [] + 1) [(entry, 0)] [entry] [] = some result :=
    exists_depthFirst hnodup hclosed hstack hfuel
  refine ⟨result, fun fuel hle => depthFirst_le hle h,
    depthFirst_sound h (Search.start _ entry) fun frame hmem j hj => ?_⟩
  obtain rfl := List.mem_singleton.mp hmem
  exact absurd hj (Nat.not_lt_zero j)

end Stack

end DepthFirst

end Crabbit.Lib
