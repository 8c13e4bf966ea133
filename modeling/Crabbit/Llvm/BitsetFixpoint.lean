/-
  Crabbit.Llvm.BitsetFixpoint

  The backward fixpoint as the code runs it, on words of bits, for transfers by
  sets of generated and killed bits.

  It does on the words what the solver of `BackwardProblem` does on sets
  (`visit_sets`), so it ends, and its sets satisfy the equations; every bit in
  them has a cause (`fixpoint_induction`), so no smaller sets do.
-/

import Crabbit.Llvm.BackwardFixpoint
import Crabbit.Llvm.BitSet
import Crabbit.Llvm.RegionCfg

namespace Crabbit.Llvm

namespace RegionCfg

variable {nbits : Nat} (cfg : RegionCfg) (boundary : Nat → BitSet nbits)
  (transfer : Nat → BitSet nbits → BitSet nbits)

/-- The two arrays of the loop and the flag of the running round. -/
structure BitsetState (nbits : Nat) where
  liveIn : Nat → BitSet nbits
  liveOut : Nat → BitSet nbits
  changed : Bool

/-- What the out-set of a block starts from. -/
def outSeed (b : Nat) : BitSet nbits :=
  if cfg.succsOf b = [] then boundary b else BitSet.new nbits

def bitsetOut (liveIn : Nat → BitSet nbits) (b : Nat) : BitSet nbits :=
  (cfg.succsOf b).foldl (fun out s => (out.unionWith (liveIn s)).1) (cfg.outSeed boundary b)

def bitsetInit : BitsetState nbits where
  liveOut := cfg.outSeed boundary
  liveIn b := transfer b (cfg.outSeed boundary b)
  changed := false

def bitsetVisit (s : BitsetState nbits) (b : Nat) : BitsetState nbits :=
  let out := cfg.bitsetOut boundary s.liveIn b
  if out ≠ s.liveOut b then
    let liveOut := Function.update s.liveOut b out
    let new_in := transfer b out
    if new_in ≠ s.liveIn b then ⟨Function.update s.liveIn b new_in, liveOut, true⟩
    else ⟨s.liveIn, liveOut, s.changed⟩
  else s

def bitsetRound (s : BitsetState nbits) : BitsetState nbits :=
  (List.range cfg.len).reverse.foldl (cfg.bitsetVisit boundary transfer)
    ⟨s.liveIn, s.liveOut, false⟩

def bitsetLoop : Nat → BitsetState nbits → Option (BitsetState nbits)
  | 0, _ => none
  | fuel + 1, s =>
    let s' := cfg.bitsetRound boundary transfer s
    if s'.changed then bitsetLoop fuel s' else some s'

/-- `backward_bitset_fixpoint`, with fuel for its rounds. -/
def backwardBitsetFixpoint (fuel : Nat) :
    Option ((Nat → BitSet nbits) × (Nat → BitSet nbits)) :=
  (cfg.bitsetLoop boundary transfer fuel (cfg.bitsetInit boundary transfer)).map fun s =>
    (s.liveIn, s.liveOut)

/-! ## Generated and killed bits -/

/-- What is left of an out-set. -/
def escaped (kill out : BitSet nbits) : BitSet nbits :=
  (List.range nbits).foldl (fun escaped k => if kill.contains k then escaped.remove k else escaped)
    out

/-- The transfer of a block that generates some bits and kills others. -/
def genKill (gens kills : Nat → BitSet nbits) (b : Nat) (out : BitSet nbits) : BitSet nbits :=
  ((gens b).unionWith (escaped (kills b) out)).1

/-- The bits of a set that are in range; none of the others is ever killed. -/
def killed (kill : BitSet nbits) : Finset Nat := kill.toFinset.filter (· < nbits)

theorem contains_foldl_remove (kill : BitSet nbits) (ks : List Nat) (hks : ∀ k ∈ ks, k < nbits)
    (out : BitSet nbits) (k : Nat) :
    (ks.foldl (fun escaped k => if kill.contains k then escaped.remove k else escaped)
      out).contains k = (out.contains k && !(decide (k ∈ ks) && kill.contains k)) := by
  induction ks generalizing out with
  | nil => simp
  | cons j ks ih =>
    obtain ⟨hj, hks⟩ := List.forall_mem_cons.mp hks
    rw [List.foldl_cons, ih hks]
    by_cases hkill : kill.contains j = true
    · rw [if_pos hkill, BitSet.contains_remove hj]
      by_cases hk : k = j
      · subst hk
        simp [hkill]
      · simp [hk]
    · rw [if_neg hkill]
      by_cases hk : k = j
      · subst hk
        simp [hkill]
      · simp [hk]

theorem toFinset_escaped (kill out : BitSet nbits) :
    (escaped kill out).toFinset = out.toFinset \ killed kill := by
  ext k
  rw [BitSet.mem_toFinset, escaped, contains_foldl_remove _ _ fun k hk => List.mem_range.mp hk]
  simp only [killed, List.mem_range, Bool.and_eq_true, Bool.not_eq_true', Bool.and_eq_false_iff,
    decide_eq_false_iff_not, Finset.mem_sdiff, BitSet.mem_toFinset, Finset.mem_filter, not_and]
  by_cases hk : kill.contains k = true
  · simp [hk]
  · simp [hk]

/-- The problem in terms of sets. -/
def problem (gens kills : Nat → BitSet nbits) : BackwardProblem Nat where
  succs := cfg.succsOf
  boundary b := (boundary b).toFinset
  transfer b out := (gens b).toFinset ∪ (out \ killed (kills b))

/-! ## On words as on sets -/

variable (gens kills : Nat → BitSet nbits)

theorem toFinset_genKill (b : Nat) (out : BitSet nbits) :
    (genKill gens kills b out).toFinset =
      (cfg.problem boundary gens kills).transfer b out.toFinset := by
  rw [genKill, BitSet.toFinset_unionWith, toFinset_escaped]
  rfl

/-- The sets of a state. -/
def BitsetState.sets (s : BitsetState nbits) : BackwardProblem.State Nat where
  liveIn b := (s.liveIn b).toFinset
  liveOut b := (s.liveOut b).toFinset
  changed := s.changed

theorem toFinset_outSeed (b : Nat) :
    (cfg.outSeed boundary b).toFinset =
      if cfg.succsOf b = [] then (boundary b).toFinset else ∅ := by
  rw [outSeed]
  split
  · rfl
  · exact BitSet.toFinset_new

theorem toFinset_bitsetOut (liveIn : Nat → BitSet nbits) (b : Nat) :
    (cfg.bitsetOut boundary liveIn b).toFinset =
      (cfg.problem boundary gens kills).outOf (fun c => (liveIn c).toFinset) b := by
  have hfold : ∀ (succs : List Nat) (out : BitSet nbits),
      (succs.foldl (fun out s => (out.unionWith (liveIn s)).1) out).toFinset =
        succs.foldl (fun out s => out ∪ (liveIn s).toFinset) out.toFinset := by
    intro succs
    induction succs with
    | nil => exact fun _ => rfl
    | cons s succs ih =>
      intro out
      rw [List.foldl_cons, ih, BitSet.toFinset_unionWith]
      rfl
  rw [bitsetOut, hfold, toFinset_outSeed]
  rfl

theorem toFinset_update (sets : Nat → BitSet nbits) (b : Nat) (set : BitSet nbits) :
    (fun c => (Function.update sets b set c).toFinset) =
      Function.update (fun c => (sets c).toFinset) b set.toFinset := by
  funext c
  by_cases h : c = b
  · subst h
    rw [Function.update_self, Function.update_self]
  · rw [Function.update_of_ne h, Function.update_of_ne h]

theorem sets_init :
    (cfg.bitsetInit boundary (genKill gens kills)).sets = (cfg.problem boundary gens kills).init := by
  have hseed : (fun b => (cfg.outSeed boundary b).toFinset) =
      fun b => if cfg.succsOf b = [] then (boundary b).toFinset else ∅ :=
    funext (cfg.toFinset_outSeed boundary)
  have hin : (fun b => (genKill gens kills b (cfg.outSeed boundary b)).toFinset) =
      fun b => (cfg.problem boundary gens kills).transfer b
        (if cfg.succsOf b = [] then (boundary b).toFinset else ∅) := by
    funext b
    rw [cfg.toFinset_genKill boundary gens kills, toFinset_outSeed]
  exact (BackwardProblem.State.mk.injEq ..).mpr ⟨hin, hseed, rfl⟩

theorem visit_sets (s : BitsetState nbits) (b : Nat) :
    (cfg.bitsetVisit boundary (genKill gens kills) s b).sets =
      (cfg.problem boundary gens kills).visit s.sets b := by
  have hout := cfg.toFinset_bitsetOut boundary gens kills s.liveIn b
  have hin := cfg.toFinset_genKill boundary gens kills b (cfg.bitsetOut boundary s.liveIn b)
  rw [hout] at hin
  rw [bitsetVisit, BackwardProblem.visit]
  by_cases h : cfg.bitsetOut boundary s.liveIn b = s.liveOut b
  · have h' : (cfg.problem boundary gens kills).outOf s.sets.liveIn b = s.sets.liveOut b :=
      hout.symm.trans (congrArg BitSet.toFinset h)
    rw [if_neg (not_not_intro h), if_neg (not_not_intro h')]
  have h' : ¬ (cfg.problem boundary gens kills).outOf s.sets.liveIn b = s.sets.liveOut b :=
    fun heq => h (BitSet.toFinset_injective (hout.trans heq))
  rw [if_pos h, if_pos h']
  by_cases hnew : genKill gens kills b (cfg.bitsetOut boundary s.liveIn b) = s.liveIn b
  · have hnew' : (cfg.problem boundary gens kills).transfer b
        ((cfg.problem boundary gens kills).outOf s.sets.liveIn b) = s.sets.liveIn b :=
      hin.symm.trans (congrArg BitSet.toFinset hnew)
    rw [if_neg (not_not_intro hnew), if_neg (not_not_intro hnew')]
    refine (BackwardProblem.State.mk.injEq ..).mpr ⟨rfl, ?_, rfl⟩
    exact (toFinset_update _ _ _).trans (congrArg _ hout)
  · have hnew' : ¬ (cfg.problem boundary gens kills).transfer b
        ((cfg.problem boundary gens kills).outOf s.sets.liveIn b) = s.sets.liveIn b :=
      fun heq => hnew (BitSet.toFinset_injective (hin.trans heq))
    rw [if_pos hnew, if_pos hnew']
    refine (BackwardProblem.State.mk.injEq ..).mpr ⟨?_, ?_, rfl⟩
    · exact (toFinset_update _ _ _).trans (congrArg _ hin)
    · exact (toFinset_update _ _ _).trans (congrArg _ hout)

theorem round_sets (s : BitsetState nbits) :
    (cfg.bitsetRound boundary (genKill gens kills) s).sets =
      (cfg.problem boundary gens kills).round (List.range cfg.len).reverse s.sets := by
  rw [bitsetRound, BackwardProblem.round]
  generalize (List.range cfg.len).reverse = order
  generalize hstart : (⟨s.liveIn, s.liveOut, false⟩ : BitsetState nbits) = start
  have hsets : (⟨s.sets.liveIn, s.sets.liveOut, false⟩ : BackwardProblem.State Nat) =
      start.sets := by
    rw [← hstart]
    rfl
  rw [hsets]
  clear hstart hsets
  induction order generalizing start with
  | nil => rfl
  | cons b order ih => rw [List.foldl_cons, List.foldl_cons, ih, visit_sets]

theorem loop_sets (fuel : Nat) (s : BitsetState nbits) :
    (cfg.bitsetLoop boundary (genKill gens kills) fuel s).map BitsetState.sets =
      (cfg.problem boundary gens kills).loop (List.range cfg.len).reverse fuel s.sets := by
  induction fuel generalizing s with
  | zero => rfl
  | succ fuel ih =>
    have hchanged : (cfg.bitsetRound boundary (genKill gens kills) s).changed =
        ((cfg.problem boundary gens kills).round (List.range cfg.len).reverse s.sets).changed := by
      rw [← round_sets]
      rfl
    rw [bitsetLoop, BackwardProblem.loop, ← hchanged]
    split
    · rw [ih, round_sets]
    · rw [Option.map_some, round_sets]

theorem fixpoint_sets (fuel : Nat) :
    (cfg.backwardBitsetFixpoint boundary (genKill gens kills) fuel).map
        (fun r => (fun b => (r.1 b).toFinset, fun b => (r.2 b).toFinset)) =
      (cfg.problem boundary gens kills).fixpoint cfg.len fuel := by
  rw [backwardBitsetFixpoint, BackwardProblem.fixpoint, ← sets_init, ← loop_sets, Option.map_map,
    Option.map_map]
  rfl

/-! ## The least solution -/

/-- The bits of the sets of the blocks. -/
def bitsOf (sets : Nat → BitSet nbits) (b : Nat) : Set Nat := {k | (sets b).contains k = true}

/-- The equations of the blocks, bit by bit: a block without successors has its
    boundary for the union. -/
structure Solves (liveIn liveOut : Nat → Set Nat) : Prop where
  out_iff : ∀ b < cfg.len, ∀ k < nbits, k ∈ liveOut b ↔
    (cfg.succsOf b = [] ∧ k ∈ bitsOf boundary b) ∨ ∃ s ∈ cfg.succsOf b, k ∈ liveIn s
  in_iff : ∀ b < cfg.len, ∀ k < nbits, k ∈ liveIn b ↔
    k ∈ bitsOf gens b ∨ k ∈ liveOut b ∧ k ∉ bitsOf kills b

/-- A solution inside every other. -/
structure LeastSolution (liveIn liveOut : Nat → Set Nat) : Prop where
  solves : cfg.Solves boundary gens kills liveIn liveOut
  least : ∀ ins outs, cfg.Solves boundary gens kills ins outs → ∀ b < cfg.len, ∀ k < nbits,
    (k ∈ liveIn b → k ∈ ins b) ∧ (k ∈ liveOut b → k ∈ outs b)

/-- A round for each bit of each block, and one more. -/
def enoughRounds (cfg : RegionCfg) (nbits : Nat) : Nat :=
  cfg.len * (64 * ((nbits + 63) / 64)) + 1

variable {cfg boundary gens kills}

theorem bitsetLoop_le {fuel fuel' : Nat} (hle : fuel ≤ fuel') {s s' : BitsetState nbits}
    (h : cfg.bitsetLoop boundary transfer fuel s = some s') :
    cfg.bitsetLoop boundary transfer fuel' s = some s' := by
  induction fuel generalizing fuel' s with
  | zero => cases h
  | succ fuel ih =>
    obtain ⟨fuel', rfl⟩ : ∃ n, fuel' = n + 1 := ⟨fuel' - 1, by omega⟩
    rw [bitsetLoop] at h ⊢
    split at h
    next hch =>
      rw [if_pos hch]
      exact ih (by omega) h
    next hch =>
      rw [if_neg hch]
      exact h

/-- The loop ends, however much fuel is left. -/
theorem exists_backwardBitsetFixpoint :
    ∃ liveIn liveOut, ∀ fuel ≥ cfg.enoughRounds nbits,
      cfg.backwardBitsetFixpoint boundary (genKill gens kills) fuel = some (liveIn, liveOut) := by
  have hword : ∀ s : BitSet nbits, s.toFinset ⊆ Finset.range (64 * ((nbits + 63) / 64)) :=
    fun s => Finset.filter_subset ..
  have hmono : ∀ b, Monotone ((cfg.problem boundary gens kills).transfer b) :=
    fun b out out' hle => Finset.union_subset_union_right (Finset.sdiff_subset_sdiff hle le_rfl)
  have hrounds : cfg.len * (Finset.range (64 * ((nbits + 63) / 64))).card <
      cfg.enoughRounds nbits := by
    rw [Finset.card_range]
    exact Nat.lt_succ_self _
  obtain ⟨_, _, h⟩ := (cfg.problem boundary gens kills).exists_fixpoint hmono
    (fun b => hword _)
    (fun b out hout => Finset.union_subset (hword _) (Finset.sdiff_subset.trans hout)) hrounds
  rw [← fixpoint_sets] at h
  obtain ⟨⟨liveIn, liveOut⟩, hrun, -⟩ := Option.map_eq_some_iff.mp h
  obtain ⟨s, hloop, hs⟩ := Option.map_eq_some_iff.mp hrun
  refine ⟨liveIn, liveOut, fun fuel hfuel => ?_⟩
  rw [backwardBitsetFixpoint, bitsetLoop_le _ hfuel hloop, Option.map_some, hs]

/-- What the loop ends with is the least solution. -/
theorem leastSolution_of_fixpoint {fuel : Nat} {liveIn liveOut : Nat → BitSet nbits}
    (h : cfg.backwardBitsetFixpoint boundary (genKill gens kills) fuel = some (liveIn, liveOut)) :
    cfg.LeastSolution boundary gens kills (bitsOf liveIn) (bitsOf liveOut) := by
  have hfix := cfg.fixpoint_sets boundary gens kills fuel
  rw [h, Option.map_some] at hfix
  have hsol := BackwardProblem.fixpoint_isSolution hfix.symm
  refine ⟨⟨fun b hb k _ => ?_, fun b hb k hk => ?_⟩, fun ins outs hother => ?_⟩
  · have hmem := Finset.ext_iff.mp (hsol.out_eq b hb) k
    rw [BackwardProblem.mem_outOf] at hmem
    simpa only [problem, BitSet.mem_toFinset, bitsOf, Set.mem_ofPred_eq] using hmem
  · have hmem := Finset.ext_iff.mp (hsol.in_eq b) k
    simpa [problem, killed, bitsOf, hk] using hmem
  · -- A bit out of range is in no one's way.
    have hcause := @BackwardProblem.fixpoint_induction _ _ _ cfg.len _ _ _
      (fun b k => k < nbits → k ∈ ins b) (fun b k => k < nbits → k ∈ outs b)
      (fun b _ s hs => cfg.succsOf_lt hs)
      (fun b hb hnil k hk hlt => (hother.out_iff b hb k hlt).mpr
        (Or.inl ⟨hnil, BitSet.mem_toFinset.mp hk⟩))
      (fun b hb s hs k hin hlt => (hother.out_iff b hb k hlt).mpr (Or.inr ⟨s, hs, hin hlt⟩))
      (fun b hb out hout k hk hlt => by
        refine (hother.in_iff b hb k hlt).mpr ?_
        rcases Finset.mem_union.mp hk with hk | hk
        · exact Or.inl (BitSet.mem_toFinset.mp hk)
        · obtain ⟨hk, hkill⟩ := Finset.mem_sdiff.mp hk
          refine Or.inr ⟨hout k hk hlt, fun h => hkill ?_⟩
          exact Finset.mem_filter.mpr ⟨BitSet.mem_toFinset.mpr h, hlt⟩)
      hfix.symm
    exact fun b hb k hk => ⟨fun hin => (hcause b hb).1 k (BitSet.mem_toFinset.mpr hin) hk,
      fun hout => (hcause b hb).2 k (BitSet.mem_toFinset.mpr hout) hk⟩

/-! ## Another order of the blocks -/

/-- The equations only look at the sets of blocks. -/
theorem Solves.congr {ins ins' outs outs' : Nat → Set Nat}
    (h : cfg.Solves boundary gens kills ins outs) (hin : ∀ b < cfg.len, ins' b = ins b)
    (hout : ∀ b < cfg.len, outs' b = outs b) : cfg.Solves boundary gens kills ins' outs' := by
  refine ⟨fun b hb k hk => ?_, fun b hb k hk => ?_⟩
  · rw [hout b hb, h.out_iff b hb k hk]
    have hsucc : (∃ s ∈ cfg.succsOf b, k ∈ ins s) ↔ ∃ s ∈ cfg.succsOf b, k ∈ ins' s :=
      exists_congr fun s => and_congr_right fun hs => by rw [hin s (cfg.succsOf_lt hs)]
    rw [hsucc]
  · rw [hin b hb, hout b hb]
    exact h.in_iff b hb k hk

theorem bitsOf_relabel {n : Nat} (σ : Equiv.Perm (Fin n)) (sets : Nat → BitSet nbits) {b : Nat}
    (h : b < n) : bitsOf (relabel σ sets) (reindex σ b) = bitsOf sets b := by
  rw [bitsOf, relabel_reindex σ sets h]
  rfl

/-- The equations of the reordered graph are those of the graph. -/
theorem solves_reorder (σ : Equiv.Perm (Fin cfg.len)) {ins outs : Nat → Set Nat} :
    (cfg.reorder σ).Solves (relabel σ boundary) (relabel σ gens) (relabel σ kills) ins outs ↔
      cfg.Solves boundary gens kills (fun b => ins (reindex σ b))
        (fun b => outs (reindex σ b)) := by
  have hblock : ∀ {P : Nat → Prop}, (∀ b < (cfg.reorder σ).len, P b) ↔
      ∀ b < cfg.len, P (reindex σ b) := by
    intro P
    rw [len_reorder]
    refine ⟨fun h b hb => h _ (reindex_lt σ hb), fun h b hb => ?_⟩
    have := h _ (reindex_lt σ.symm hb)
    rwa [reindex_symm σ hb] at this
  have hout : ∀ b < cfg.len, ∀ k,
      (((cfg.reorder σ).succsOf (reindex σ b) = [] ∧
          k ∈ bitsOf (relabel σ boundary) (reindex σ b)) ∨
        ∃ s ∈ (cfg.reorder σ).succsOf (reindex σ b), k ∈ ins s) ↔
      ((cfg.succsOf b = [] ∧ k ∈ bitsOf boundary b) ∨
        ∃ s ∈ cfg.succsOf b, k ∈ ins (reindex σ s)) := by
    intro b hb k
    rw [succsOf_reorder cfg σ hb, bitsOf_relabel σ boundary hb, List.map_eq_nil_iff]
    simp only [List.mem_map, exists_exists_and_eq_and]
  constructor
  · intro h
    refine ⟨fun b hb k hk => ?_, fun b hb k hk => ?_⟩
    · rw [← hout b hb k]
      exact hblock.mp h.out_iff b hb k hk
    · have := hblock.mp h.in_iff b hb k hk
      rwa [bitsOf_relabel σ gens hb, bitsOf_relabel σ kills hb] at this
  · intro h
    refine ⟨hblock.mpr fun b hb k hk => ?_, hblock.mpr fun b hb k hk => ?_⟩
    · rw [hout b hb k]
      exact h.out_iff b hb k hk
    · rw [bitsOf_relabel σ gens hb, bitsOf_relabel σ kills hb]
      exact h.in_iff b hb k hk

/-- Least solutions of the graph and of the reordered graph agree. -/
theorem LeastSolution.reorder_iff (σ : Equiv.Perm (Fin cfg.len))
    {ins outs ins' outs' : Nat → Set Nat} (h : cfg.LeastSolution boundary gens kills ins outs)
    (h' : (cfg.reorder σ).LeastSolution (relabel σ boundary) (relabel σ gens) (relabel σ kills)
      ins' outs') {b : Nat} (hb : b < cfg.len) {k : Nat} (hk : k < nbits) :
    (k ∈ ins' (reindex σ b) ↔ k ∈ ins b) ∧ (k ∈ outs' (reindex σ b) ↔ k ∈ outs b) := by
  have hback := h.least _ _ ((solves_reorder σ).mp h'.solves) b hb k hk
  have hforth : (cfg.reorder σ).Solves (relabel σ boundary) (relabel σ gens) (relabel σ kills)
      (relabel σ ins) (relabel σ outs) :=
    (solves_reorder σ).mpr (h.solves.congr (fun b hb => relabel_reindex σ ins hb)
      (fun b hb => relabel_reindex σ outs hb))
  have hle := h'.least _ _ hforth (reindex σ b) (by rw [len_reorder]; exact reindex_lt σ hb) k hk
  rw [relabel_reindex σ ins hb, relabel_reindex σ outs hb] at hle
  exact ⟨⟨hle.1, hback.1⟩, ⟨hle.2, hback.2⟩⟩

end RegionCfg

open RegionCfg in
/-- The loop ends with the least solution of its equations, and with the blocks
    in another order it ends with the same sets. -/
theorem backwardBitsetFixpoint_least {nbits : Nat} (cfg : RegionCfg)
    (boundary gens kills : Nat → BitSet nbits) :
    ∃ liveIn liveOut : Nat → BitSet nbits,
      (∀ fuel ≥ cfg.enoughRounds nbits,
        cfg.backwardBitsetFixpoint boundary (genKill gens kills) fuel = some (liveIn, liveOut)) ∧
      cfg.LeastSolution boundary gens kills (bitsOf liveIn) (bitsOf liveOut) ∧
      ∀ σ : Equiv.Perm (Fin cfg.len), ∃ liveIn' liveOut' : Nat → BitSet nbits,
        (∀ fuel ≥ cfg.enoughRounds nbits,
          (cfg.reorder σ).backwardBitsetFixpoint (relabel σ boundary)
            (genKill (relabel σ gens) (relabel σ kills)) fuel = some (liveIn', liveOut')) ∧
        ∀ b < cfg.len, ∀ k < nbits,
          (liveIn' (reindex σ b)).contains k = (liveIn b).contains k ∧
          (liveOut' (reindex σ b)).contains k = (liveOut b).contains k := by
  obtain ⟨liveIn, liveOut, hrun⟩ := @exists_backwardBitsetFixpoint _ cfg boundary gens kills
  have hleast := leastSolution_of_fixpoint (hrun _ le_rfl)
  refine ⟨liveIn, liveOut, hrun, hleast, fun σ => ?_⟩
  obtain ⟨liveIn', liveOut', hrun'⟩ := @exists_backwardBitsetFixpoint _ (cfg.reorder σ)
    (relabel σ boundary) (relabel σ gens) (relabel σ kills)
  have hrounds : (cfg.reorder σ).enoughRounds nbits = cfg.enoughRounds nbits := by
    rw [enoughRounds, len_reorder, enoughRounds]
  refine ⟨liveIn', liveOut', fun fuel hfuel => hrun' fuel (hrounds ▸ hfuel), fun b hb k hk => ?_⟩
  obtain ⟨hin, hout⟩ :=
    hleast.reorder_iff σ (leastSolution_of_fixpoint (hrun' _ le_rfl)) hb hk
  exact ⟨Bool.eq_iff_iff.mpr hin, Bool.eq_iff_iff.mpr hout⟩

end Crabbit.Llvm
