/-
  Crabbit.Bpgo.Profile

  The profile of an op: named measurements, and how several of them land on
  one op. Costs (`cycles`, `regalloc.cycles`, ...) add up; counts of runs
  (`executions`) do not, the larger one is kept.

  A `Profile` says what every op of a function carries. What the backward
  walk has to conserve is `total`: the costs over a list of ops. Each way of
  putting a profile on ops (`add`, `addAll`, `spread`, `addInstance`,
  `evenOutExecutions`) has one lemma that says what it does to that total.
  Numbers are exact rationals.
-/

import Mathlib.Data.Rat.Defs
import Mathlib.Algebra.BigOperators.Group.List.Basic
import Mathlib.Tactic.FieldSimp
import Mathlib.Tactic.Linarith
import Mathlib.Tactic.Ring

namespace Crabbit.Bpgo

/-! ## Metrics -/

/-- Estimated cycles spent in the op over the whole measured run. -/
def CYCLES : String := "cycles"

/-- Estimated number of times the op ran. -/
def EXECUTIONS : String := "executions"

def endsWith (metric suffix : String) : Bool :=
  suffix.toList.isSuffixOf metric.toList

/-- How a metric combines when several sources land on one op. -/
def isCount (metric : String) : Bool :=
  metric == EXECUTIONS || endsWith metric ".executions"

/-- The metrics the conserved total is over. -/
def isCost (metric : String) : Bool :=
  metric == CYCLES || endsWith metric ".cycles"

/-- A name with two suffixes has the one as a suffix of the other, and
    neither `.cycles` nor `.executions` ends the other. -/
theorem isCount_of_isCost {metric : String} (h : isCost metric = true) :
    isCount metric = false := by
  simp only [isCost, endsWith, Bool.or_eq_true, beq_iff_eq,
    List.isSuffixOf_iff_suffix] at h
  rcases h with rfl | hcycles
  · decide
  · apply Bool.eq_false_iff.mpr
    simp only [isCount, endsWith, Bool.or_eq_true, beq_iff_eq,
      List.isSuffixOf_iff_suffix, ne_eq, not_or]
    refine ⟨?_, fun hruns => ?_⟩
    · rintro rfl
      exact absurd hcycles (by decide)
    · rcases List.suffix_or_suffix_of_suffix hcycles hruns with h' | h'
      · exact absurd h' (by decide)
      · exact absurd h' (by decide)

@[simp] theorem isCost_cycles : isCost CYCLES = true := by decide

@[simp] theorem isCost_executions : isCost EXECUTIONS = false := by decide

/-- `what.cycles`, the cost a pass attributes to its own decision. -/
@[simp] theorem isCost_append_cycles (what : String) :
    isCost (what ++ ".cycles") = true := by
  simp [isCost, endsWith]

/-! ## Named measurements -/

/-- `entry(metric).or_insert(0.0)`, then `f` on the slot. -/
def upsert (metric : String) (f : ℚ → ℚ) : List (String × ℚ) → List (String × ℚ)
  | [] => [(metric, f 0)]
  | (name, value) :: rest =>
      if name = metric then (name, f value) :: rest
      else (name, value) :: upsert metric f rest

theorem mem_names_upsert {metric name : String} {f : ℚ → ℚ} :
    ∀ {entries : List (String × ℚ)},
      name ∈ (upsert metric f entries).map Prod.fst →
        name = metric ∨ name ∈ entries.map Prod.fst
  | [], h => by simpa [upsert] using h
  | (other, value) :: rest, h => by
      by_cases hother : other = metric
      · simp only [upsert, if_pos hother] at h
        exact .inr (by simpa using h)
      · simp only [upsert, if_neg hother, List.map_cons, List.mem_cons] at h
        rcases h with h | h
        · exact .inr (by simp [h])
        · rcases mem_names_upsert h with h' | h'
          · exact .inl h'
          · exact .inr (List.mem_cons_of_mem _ h')

theorem nodup_names_upsert {metric : String} {f : ℚ → ℚ} :
    ∀ {entries : List (String × ℚ)}, (entries.map Prod.fst).Nodup →
      ((upsert metric f entries).map Prod.fst).Nodup
  | [], _ => by simp [upsert]
  | (other, value) :: rest, h => by
      simp only [List.map_cons, List.nodup_cons] at h
      by_cases hother : other = metric
      · simp only [upsert, if_pos hother, List.map_cons, List.nodup_cons]
        exact h
      · simp only [upsert, if_neg hother, List.map_cons, List.nodup_cons]
        refine ⟨fun hmem => ?_, nodup_names_upsert h.2⟩
        rcases mem_names_upsert hmem with h' | h'
        · exact hother h'
        · exact h.1 h'

/-- Named measurements of one op, each name once. -/
structure ProfileAttr where
  entries : List (String × ℚ)
  nodup : (entries.map Prod.fst).Nodup
deriving DecidableEq

namespace ProfileAttr

/-- The profile with no measurement. -/
def empty : ProfileAttr := ⟨[], List.nodup_nil⟩

def update (p : ProfileAttr) (metric : String) (f : ℚ → ℚ) : ProfileAttr :=
  ⟨upsert metric f p.entries, nodup_names_upsert p.nodup⟩

/-- The value of a metric, if it is there. -/
def get (p : ProfileAttr) (metric : String) : Option ℚ :=
  p.entries.lookup metric

/-- What the metrics that `counted` holds of sum up to. -/
def sumOf (counted : String → Bool) (entries : List (String × ℚ)) : ℚ :=
  (entries.map fun e => if counted e.1 then e.2 else 0).sum

/-- `cycles` together with every `*.cycles` metric. -/
def cost (p : ProfileAttr) : ℚ := sumOf isCost p.entries

/-- The `*.cycles` metrics alone. -/
def otherCost (p : ProfileAttr) : ℚ :=
  sumOf (fun metric => isCost metric && metric != CYCLES) p.entries

@[simp] theorem cost_empty : empty.cost = 0 := rfl

theorem sumOf_upsert_add (counted : String → Bool) (metric : String) (v : ℚ) :
    ∀ entries : List (String × ℚ),
      sumOf counted (upsert metric (· + v) entries) =
        sumOf counted entries + (if counted metric then v else 0)
  | [] => by simp [upsert, sumOf]
  | (name, value) :: rest => by
      by_cases hname : name = metric
      · simp only [upsert, hname, if_true, sumOf, List.map_cons, List.sum_cons]
        by_cases hc : counted metric <;> simp [hc]
        ring
      · have ih := sumOf_upsert_add counted metric v rest
        simp only [sumOf] at ih
        simp only [upsert, if_neg hname, sumOf, List.map_cons, List.sum_cons, ih]
        ring

theorem sumOf_upsert_of_not {counted : String → Bool} {metric : String}
    (h : counted metric = false) (f : ℚ → ℚ) :
    ∀ entries : List (String × ℚ),
      sumOf counted (upsert metric f entries) = sumOf counted entries
  | [] => by simp [upsert, sumOf, h]
  | (name, value) :: rest => by
      by_cases hname : name = metric
      · simp [upsert, sumOf, hname, h]
      · have ih := sumOf_upsert_of_not h f rest
        simp only [sumOf] at ih
        simp only [upsert, if_neg hname, sumOf, List.map_cons, List.sum_cons, ih]

theorem cost_update_add (p : ProfileAttr) (metric : String) (v : ℚ) :
    (p.update metric (· + v)).cost = p.cost + (if isCost metric then v else 0) :=
  sumOf_upsert_add isCost metric v p.entries

theorem cost_update_of_not_cost (p : ProfileAttr) {metric : String}
    (h : isCost metric = false) (f : ℚ → ℚ) : (p.update metric f).cost = p.cost :=
  sumOf_upsert_of_not h f p.entries

/-- `cycles` by its slot: the names are distinct, so the slot is all of it. -/
theorem sumOf_cycles :
    ∀ {entries : List (String × ℚ)}, (entries.map Prod.fst).Nodup →
      sumOf isCost entries =
        (entries.lookup CYCLES).getD 0 +
          sumOf (fun metric => isCost metric && metric != CYCLES) entries
  | [], _ => by simp [sumOf]
  | (name, value) :: rest, h => by
      simp only [List.map_cons, List.nodup_cons] at h
      have ih := sumOf_cycles h.2
      by_cases hname : name = CYCLES
      · have hnone : rest.lookup CYCLES = none := by
          rw [List.lookup_eq_none_iff]
          intro e he
          rw [bne_iff_ne, ← hname]
          rintro heq
          exact h.1 (List.mem_map.mpr ⟨e, he, heq.symm⟩)
        rw [hnone] at ih
        simp only [sumOf, Option.getD_none, zero_add] at ih
        simp [sumOf, hname, ih]
      · have hbeq : (CYCLES == name) = false := by simpa using Ne.symm hname
        simp only [sumOf] at ih
        simp only [sumOf, List.map_cons, List.sum_cons, ih, List.lookup_cons, hbeq]
        by_cases hc : isCost name <;> simp [hc, hname]
        ring

/-- The cost of a profile is its `cycles` and the other costs. -/
theorem cost_eq (p : ProfileAttr) : p.cost = (p.get CYCLES).getD 0 + p.otherCost :=
  sumOf_cycles p.nodup

end ProfileAttr

/-! ## The profile on the ops -/

/-- A handle of an op, as the context hands them out. -/
abbrev Ptr := Nat

/-- What every op carries. -/
abbrev Profile := Ptr → Option ProfileAttr

namespace Profile

def set (P : Profile) (op : Ptr) (p : ProfileAttr) : Profile :=
  fun other => if other = op then some p else P other

def getD (P : Profile) (op : Ptr) : ProfileAttr := (P op).getD .empty

/-- Add `value` to `metric` on `op`: summed for costs, the larger kept for
    counts. -/
def add (P : Profile) (op : Ptr) (metric : String) (value : ℚ) : Profile :=
  P.set op ((P.getD op).update metric fun slot =>
    if isCount metric then max slot value else slot + value)

/-- One metric of `addAll`. -/
def addEntry (share : ℚ) (p : ProfileAttr) (e : String × ℚ) : ProfileAttr :=
  p.update e.1 fun slot => if isCount e.1 then max slot e.2 else slot + e.2 * share

/-- Add every metric of `source` to `op`, costs scaled by `share`, counts as
    they are. -/
def addAll (P : Profile) (op : Ptr) (source : ProfileAttr) (share : ℚ) : Profile :=
  if source.entries = [] then P
  else P.set op (source.entries.foldl (addEntry share) (P.getD op))

/-- Spread `source` over `targets`: costs split evenly, counts copied. -/
def spread (P : Profile) (targets : List Ptr) (source : ProfileAttr) : Profile :=
  targets.foldl (fun P target => P.addAll target source (1 / targets.length)) P

/-- Add `source` to `op` as another instance of it: its runs add to the
    op's, costs too. -/
def addInstance (P : Profile) (op : Ptr) (source : ProfileAttr) (share : ℚ) : Profile :=
  if source.entries = [] then P
  else P.set op (source.entries.foldl
    (fun p e => p.update e.1 (· + e.2 * share)) (P.getD op))

/-- The largest run count any of `ops` carries. -/
def runsOf (P : Profile) (ops : List Ptr) : Option ℚ :=
  ops.foldl (fun runs op =>
    match (P op).bind (·.get EXECUTIONS) with
    | none => runs
    | some x => some (runs.elim x (max · x))) none

/-- The ops of one block get the block's largest run count. -/
def evenOutBlock (P : Profile) (ops : List Ptr) : Profile :=
  match P.runsOf ops with
  | none => P
  | some runs =>
      ops.foldl (fun P op => P.set op ((P.getD op).update EXECUTIONS fun _ => runs)) P

/-! ## What each does to the total -/

/-- The costs the ops carry. -/
def total (ops : List Ptr) (P : Profile) : ℚ :=
  (ops.map fun op => (P.getD op).cost).sum

@[simp] theorem total_nil (P : Profile) : total [] P = 0 := rfl

@[simp] theorem total_cons (op : Ptr) (ops : List Ptr) (P : Profile) :
    total (op :: ops) P = (P.getD op).cost + total ops P := by
  simp [total]

@[simp] theorem getD_set_self (P : Profile) (op : Ptr) (p : ProfileAttr) :
    (P.set op p).getD op = p := by
  simp [getD, set]

theorem getD_set_of_ne (P : Profile) {op other : Ptr} (p : ProfileAttr)
    (h : other ≠ op) : (P.set op p).getD other = P.getD other := by
  simp [getD, set, h]

theorem total_set_of_notMem {P : Profile} {op : Ptr} (p : ProfileAttr) {ops : List Ptr}
    (h : op ∉ ops) : total ops (P.set op p) = total ops P := by
  unfold total
  congr 1
  apply List.map_congr_left
  intro other hother
  rw [getD_set_of_ne P p (by rintro rfl; exact h hother)]

/-- Writing one of the ops moves the total by what the op gained. -/
theorem total_set {P : Profile} {op : Ptr} (p : ProfileAttr) :
    ∀ {ops : List Ptr}, ops.Nodup → op ∈ ops →
      total ops (P.set op p) = total ops P + (p.cost - (P.getD op).cost)
  | [], _, h => absurd h List.not_mem_nil
  | first :: rest, hnd, h => by
      rw [List.nodup_cons] at hnd
      rw [total_cons, total_cons]
      by_cases hfirst : first = op
      · subst hfirst
        rw [getD_set_self, total_set_of_notMem p hnd.1]
        ring
      · have hrest : op ∈ rest := by
          rcases List.mem_cons.mp h with h' | h'
          · exact absurd h'.symm hfirst
          · exact h'
        rw [getD_set_of_ne P p hfirst, total_set p hnd.2 hrest]
        ring

theorem cost_addEntry (share : ℚ) (p : ProfileAttr) (e : String × ℚ) :
    (addEntry share p e).cost = p.cost + (if isCost e.1 then e.2 else 0) * share := by
  unfold addEntry
  by_cases hcost : isCost e.1
  · simp only [isCount_of_isCost hcost, Bool.false_eq_true, if_false]
    rw [ProfileAttr.cost_update_add, if_pos hcost, if_pos hcost]
  · rw [ProfileAttr.cost_update_of_not_cost _ (Bool.eq_false_iff.mpr hcost), if_neg hcost]
    ring

/-- A fold that adds a share of every entry's cost adds that share of the
    sum. -/
theorem cost_foldl (share : ℚ) {f : ProfileAttr → String × ℚ → ProfileAttr}
    (hf : ∀ p e, (f p e).cost = p.cost + (if isCost e.1 then e.2 else 0) * share) :
    ∀ (entries : List (String × ℚ)) (p : ProfileAttr),
      (entries.foldl f p).cost = p.cost + ProfileAttr.sumOf isCost entries * share
  | [], p => by simp [ProfileAttr.sumOf]
  | e :: rest, p => by
      rw [List.foldl_cons, cost_foldl share hf rest, hf]
      simp only [ProfileAttr.sumOf, List.map_cons, List.sum_cons]
      ring

/-- Crediting each of `targets` with the same amount. -/
theorem total_foldl_credit {ops : List Ptr} {credit : Profile → Ptr → Profile} (amount : ℚ)
    (hcredit : ∀ P op, op ∈ ops → total ops (credit P op) = total ops P + amount) :
    ∀ (targets : List Ptr) (P : Profile), (∀ op ∈ targets, op ∈ ops) →
      total ops (targets.foldl credit P) = total ops P + targets.length * amount
  | [], P, _ => by simp
  | op :: rest, P, h => by
      rw [List.foldl_cons,
        total_foldl_credit amount hcredit rest _ fun o ho => h o (List.mem_cons_of_mem _ ho),
        hcredit P op (h op List.mem_cons_self)]
      push_cast [List.length_cons]
      ring

section OfFunction

variable {ops : List Ptr} (hnd : ops.Nodup)

include hnd

theorem total_add_cost {P : Profile} {op : Ptr} {metric : String} (value : ℚ)
    (h : op ∈ ops) (hcost : isCost metric = true) :
    total ops (P.add op metric value) = total ops P + value := by
  rw [add, total_set _ hnd h]
  simp only [isCount_of_isCost hcost, Bool.false_eq_true, if_false]
  rw [ProfileAttr.cost_update_add, if_pos hcost]
  ring

theorem total_addAll {P : Profile} {op : Ptr} (source : ProfileAttr) (share : ℚ)
    (h : op ∈ ops) :
    total ops (P.addAll op source share) = total ops P + source.cost * share := by
  unfold addAll
  split
  · rename_i hempty
    simp [ProfileAttr.cost, hempty, ProfileAttr.sumOf]
  · rw [total_set _ hnd h, cost_foldl share (cost_addEntry share)]
    simp only [ProfileAttr.cost]
    ring

theorem total_addInstance {P : Profile} {op : Ptr} (source : ProfileAttr) (share : ℚ)
    (h : op ∈ ops) :
    total ops (P.addInstance op source share) = total ops P + source.cost * share := by
  unfold addInstance
  split
  · rename_i hempty
    simp [ProfileAttr.cost, hempty, ProfileAttr.sumOf]
  · rw [total_set _ hnd h, cost_foldl share]
    · simp only [ProfileAttr.cost]
      ring
    · intro p e
      rw [ProfileAttr.cost_update_add]
      by_cases hcost : isCost e.1 <;> simp [hcost]

theorem total_spread {P : Profile} {targets : List Ptr} (source : ProfileAttr)
    (hne : targets ≠ []) (h : ∀ op ∈ targets, op ∈ ops) :
    total ops (P.spread targets source) = total ops P + source.cost := by
  have hlen : (targets.length : ℚ) ≠ 0 := by
    simpa using hne
  unfold spread
  rw [total_foldl_credit _
    (fun P op hop => total_addAll hnd (P := P) source (1 / targets.length) hop) targets P h]
  field_simp

/-- Run counts are no costs. -/
theorem total_evenOutBlock {P : Profile} {block : List Ptr}
    (h : ∀ op ∈ block, op ∈ ops) :
    total ops (P.evenOutBlock block) = total ops P := by
  unfold evenOutBlock
  split
  · rfl
  · rw [total_foldl_credit 0 (fun P op hop => ?_) block P h]
    · ring
    · rw [total_set _ hnd hop, ProfileAttr.cost_update_of_not_cost _ isCost_executions]
      ring

end OfFunction

end Profile

end Crabbit.Bpgo
