/-
  Crabbit.Llvm.CfgFold

  Folding branches and removing unreachable blocks keeps what a function does.
-/

import Crabbit.Llvm.CfgRewrites

namespace Crabbit.Llvm

open Crabbit.Lib

/-! ## Bits -/

theorem ConstOperand.bit_masked {c : ConstOperand} (h : c.width = 1) :
    (PVal.int c.masked).bit? = some c.isTrue := by
  have hlt : c.masked < 2 ^ 1 := by
    unfold masked
    rw [h]
    exact maskToWidth_lt (by omega)
  unfold PVal.bit? isTrue
  by_cases hzero : c.masked = 0
  · simp [hzero]
  · have hone : c.masked = 1 := by omega
    simp [hone]

/-- The comparisons the pass looks through. -/
theorem compareBits_bit {p : ICmpPredicate} {x y z : PVal} (h : compareBits p [x, y] = some z)
    {bit : Bool} (hbit : z.bit? = some bit) : ∃ bx by', x.bit? = some bx ∧ y.bit? = some by' ∧
      (p = .eq → bit = (bx == by')) ∧ (p = .ne → bit = (bx != by')) := by
  -- Only two integers have a comparison that is a bit.
  have hints : ∃ m n, x = .int m ∧ y = .int n := by
    cases x with
    | int m =>
      cases y with
      | int n => exact ⟨m, n, rfl, rfl⟩
      | poison =>
        cases h
        cases hbit
      | _ => cases h
    | poison =>
      cases y with
      | int n =>
        cases h
        cases hbit
      | poison =>
        cases h
        cases hbit
      | _ => cases h
    | _ => cases h
  obtain ⟨m, n, rfl, rfl⟩ := hints
  have hm := Nat.mod_two_eq_zero_or_one m
  have hn := Nat.mod_two_eq_zero_or_one n
  refine ⟨_, _, rfl, rfl, ?_, ?_⟩
  · rintro rfl
    cases h
    cases hbit
    rcases hm with hm | hm <;> rcases hn with hn | hn <;> simp [evalICmp, hm, hn]
  · rintro rfl
    cases h
    cases hbit
    rcases hm with hm | hm <;> rcases hn with hn | hn <;> simp [evalICmp, hm, hn]

/-- A constant operation has no operands, and its constant is its value. -/
theorem Op.const?_spec {A : CfgTable} {op : Op} {c : ConstOperand} (h : op.const? A = some c) :
    op.succs = [] ∧ op.results.length = 1 ∧
      ∀ (M : CfgMachine) args w, M.eval A op args w = some ([.int c.masked], w, 0) := by
  refine ⟨?_, ?_, fun M args w => ?_⟩
  · cases op with
    | generic id attrs results operands succs =>
      simp only [const?] at h
      split_ifs at h with hshape
      exact hshape.2.2.2
    | _ => rfl
  · cases op with
    | generic id attrs results operands succs =>
      simp only [const?] at h
      split_ifs at h with hshape
      exact hshape.2.1
    | _ => cases h
  · unfold CfgMachine.eval
    rw [h]

namespace Region

variable {A : CfgTable} {g : Region} {M : CfgMachine} {e : M.Entry} {s : M.State}

/-! ## Known values -/

/-- Where a result is available, the operation could be executed again. -/
theorem Wf.operands_available (hg : g.Wf A) {v : Value} {op : Op} (hdef : g.definingOp v = some op)
    {b : Nat} {done rest : List Op} (hops : (g.block b).ops = done ++ rest) (hb : g.Reached b)
    (havail : g.Available b done v) : ∀ w ∈ op.operands, g.Available b done w := by
  obtain ⟨hop, hv⟩ := definingOp_mem hdef
  obtain ⟨c, before, after, hsplit⟩ := exists_split hop
  have hc := hg.reached_of_available hops hb havail (mem_defs_of_result hsplit hv)
  intro w hw
  exact hg.available_trans hsplit hv (hg.uses c before op after hsplit hc w hw) hops hb havail

/-- What an operation that does not look at the world comes to, wherever its
    result is available. -/
theorem Wf.value_of_definingOp (hg : g.Wf A) {v : Value} {op : Op}
    (hdef : g.definingOp v = some op) (hlen : op.results.length = 1) (hsuccs : op.succs = [])
    (value : List PVal → Option PVal)
    (heval : ∀ args w out, M.eval A op args w = some out → ∃ x, value args = some x ∧ out.1 = [x])
    (hs : M.Reachable A g e s) {done : List Op} (hops : (g.block s.block).ops = done ++ s.rest)
    (havail : g.Available s.block done v) :
    ∃ args x, op.operands.mapM s.env = some args ∧ value args = some x ∧ s.env v = some x := by
  obtain ⟨hop, hv⟩ := definingOp_mem hdef
  obtain ⟨b, before, after, hsplit⟩ := exists_split hop
  obtain ⟨-, -, hreached⟩ := hs.located hg.toSsa
  have hb := hg.reached_of_available hops hreached havail (mem_defs_of_result hsplit hv)
  obtain ⟨r, hr⟩ := List.length_eq_one_iff.mp hlen
  have hvr : v = r := List.mem_singleton.mp (hr ▸ hv)
  rw [← hvr] at hr
  exact hs.evaluated hg.toSsa hg.uses hsplit hb hr hsuccs heval hops havail

/-- A constant has its value wherever it is available. -/
theorem Wf.const_value (hg : g.Wf A) {v : Value} {c : ConstOperand}
    (hconst : g.constOperand A v = some c) (hs : M.Reachable A g e s) {done : List Op}
    (hops : (g.block s.block).ops = done ++ s.rest) (havail : g.Available s.block done v) :
    s.env v = some (.int c.masked) := by
  obtain ⟨op, hdef, hc⟩ := Option.bind_eq_some_iff.mp hconst
  obtain ⟨hsuccs, hlen, heval⟩ := Op.const?_spec hc
  obtain ⟨args, x, -, hx, hv⟩ := hg.value_of_definingOp (M := M) hdef hlen hsuccs
    (fun _ => some (.int c.masked)) (by
      intro args w out hout
      rw [heval] at hout
      cases hout
      exact ⟨_, rfl, rfl⟩) hs hops havail
  cases hx
  exact hv

/-- A comparison of bits has the value it should, wherever it is available. -/
theorem Wf.compare_value (hg : g.Wf A) {v r lhs rhs : Value} {attrs : Nat}
    (hdef : g.definingOp v = some (.generic .icmp attrs [r] [lhs, rhs] []))
    (hbit : lhs.ty.intWidth = some 1 ∨ rhs.ty.intWidth = some 1) (hs : M.Reachable A g e s)
    {done : List Op} (hops : (g.block s.block).ops = done ++ s.rest)
    (havail : g.Available s.block done v) :
    ∃ x y z, s.env lhs = some x ∧ s.env rhs = some y ∧
      compareBits (A.icmp attrs) [x, y] = some z ∧ s.env v = some z := by
  have hcompare : Op.bitCompare? A (.generic .icmp attrs [r] [lhs, rhs] []) = some (A.icmp attrs) := by
    unfold Op.bitCompare?
    apply if_pos
    refine ⟨rfl, rfl, rfl, rfl, ?_⟩
    rcases hbit with h | h
    · exact ⟨lhs, List.mem_cons_self, h⟩
    · exact ⟨rhs, List.mem_cons_of_mem _ List.mem_cons_self, h⟩
  obtain ⟨args, z, hargs, hz, hv⟩ := hg.value_of_definingOp (M := M) hdef rfl rfl
    (compareBits (A.icmp attrs)) (by
      intro args w out hout
      unfold CfgMachine.eval at hout
      rw [hcompare] at hout
      obtain ⟨z, hz, rfl⟩ := Option.map_eq_some_iff.mp hout
      exact ⟨z, hz, rfl⟩) hs hops havail
  replace hargs : [lhs, rhs].mapM s.env = some args := hargs
  rw [List.mapM_cons, List.mapM_cons] at hargs
  obtain ⟨x, hx, hargs⟩ := Option.bind_eq_some_iff.mp hargs
  obtain ⟨ys, hys, hargs⟩ := Option.bind_eq_some_iff.mp hargs
  obtain ⟨y, hy, hys⟩ := Option.bind_eq_some_iff.mp hys
  cases hys
  cases hargs
  exact ⟨x, y, z, hx, hy, hz, hv⟩

/-! ## Folding one branch -/

/-- The parts of a negated condition. -/
theorem negatedI1Condition_eq_some {cond direct : Value} {negated : Bool}
    (h : g.negatedI1Condition A cond = some (direct, negated)) :
    ∃ attrs r lhs rhs c k, g.definingOp cond = some (.generic .icmp attrs [r] [lhs, rhs] []) ∧
      (direct = lhs ∧ c = rhs ∨ direct = rhs ∧ c = lhs) ∧ g.constOperand A c = some k ∧
      k.width = 1 ∧ direct.ty.intWidth = some 1 ∧
      (A.icmp attrs = .eq ∧ negated = !k.isTrue ∨ A.icmp attrs = .ne ∧ negated = k.isTrue) := by
  unfold negatedI1Condition at h
  split at h
  · rename_i attrs r lhs rhs hdef
    obtain ⟨negateOnZero, hpred, h⟩ := Option.bind_eq_some_iff.mp h
    obtain ⟨⟨value, constant⟩, hfound, h⟩ := Option.bind_eq_some_iff.mp h
    dsimp only at h
    split_ifs at h with hwidth hty
    obtain ⟨rfl, rfl⟩ := Prod.mk.inj (Option.some.inj h)
    have hp : A.icmp attrs = .eq ∧ negateOnZero = true ∨ A.icmp attrs = .ne ∧ negateOnZero = false := by
      unfold negateOnZero? at hpred
      split at hpred
      · exact Or.inl ⟨‹_›, (Option.some.inj hpred).symm⟩
      · exact Or.inr ⟨‹_›, (Option.some.inj hpred).symm⟩
      · cases hpred
    have hside : ∃ c, (value = lhs ∧ c = rhs ∨ value = rhs ∧ c = lhs) ∧
        g.constOperand A c = some constant := by
      unfold constantSide at hfound
      split at hfound
      · obtain ⟨rfl, rfl⟩ := Prod.mk.inj (Option.some.inj hfound)
        exact ⟨rhs, Or.inl ⟨rfl, rfl⟩, ‹_›⟩
      · obtain ⟨k, hk, heq⟩ := Option.map_eq_some_iff.mp hfound
        obtain ⟨rfl, rfl⟩ := Prod.mk.inj heq
        exact ⟨lhs, Or.inr ⟨rfl, rfl⟩, hk⟩
    obtain ⟨c, hc, hk⟩ := hside
    refine ⟨attrs, r, lhs, rhs, c, constant, hdef, hc, hk, not_not.mp hwidth, not_not.mp hty, ?_⟩
    rcases hp with ⟨hp, rfl⟩ | ⟨hp, rfl⟩
    · exact Or.inl ⟨hp, Bool.true_xor _⟩
    · exact Or.inr ⟨hp, Bool.false_xor _⟩
  · cases h

/-- The value behind a negated condition is at hand where the condition is. -/
theorem Wf.direct_available (hg : g.Wf A) {cond direct : Value} {negated : Bool}
    (h : g.negatedI1Condition A cond = some (direct, negated)) {b : Nat} {done rest : List Op}
    (hops : (g.block b).ops = done ++ rest) (hb : g.Reached b) (havail : g.Available b done cond) :
    g.Available b done direct := by
  obtain ⟨attrs, r, lhs, rhs, c, k, hdef, hside, -⟩ := negatedI1Condition_eq_some h
  have hoperands := hg.operands_available hdef hops hb havail
  rcases hside with ⟨rfl, -⟩ | ⟨rfl, -⟩
  · exact hoperands _ List.mem_cons_self
  · exact hoperands _ (List.mem_cons_of_mem _ List.mem_cons_self)

/-- And it is the condition, negated or not. -/
theorem Wf.direct_bit (hg : g.Wf A) {cond direct : Value} {negated : Bool}
    (h : g.negatedI1Condition A cond = some (direct, negated)) (hs : M.Reachable A g e s)
    {done : List Op} (hops : (g.block s.block).ops = done ++ s.rest)
    (havail : g.Available s.block done cond) {bit : Bool}
    (hbit : (s.env cond).bind PVal.bit? = some bit) :
    (s.env direct).bind PVal.bit? = some (bit ^^ negated) := by
  obtain ⟨attrs, r, lhs, rhs, c, k, hdef, hside, hk, hwidth, hty, hp⟩ := negatedI1Condition_eq_some h
  obtain ⟨-, -, hreached⟩ := hs.located hg.toSsa
  have hoperands := hg.operands_available hdef hops hreached havail
  have hwidths : lhs.ty.intWidth = some 1 ∨ rhs.ty.intWidth = some 1 := by
    rcases hside with ⟨rfl, -⟩ | ⟨rfl, -⟩
    · exact Or.inl hty
    · exact Or.inr hty
  obtain ⟨x, y, z, hx, hy, hz, hcond⟩ := hg.compare_value hdef hwidths hs hops havail
  rw [hcond] at hbit
  obtain ⟨bx, by', hbx, hby, heq, hne⟩ := compareBits_bit hz hbit
  have hc : s.env c = some (.int k.masked) := by
    apply hg.const_value hk hs hops
    rcases hside with ⟨-, rfl⟩ | ⟨-, rfl⟩
    · exact hoperands _ (List.mem_cons_of_mem _ List.mem_cons_self)
    · exact hoperands _ List.mem_cons_self
  have hkbit := ConstOperand.bit_masked hwidth
  -- Both comparisons are symmetric, so the side of the constant does not matter.
  rcases hside with ⟨rfl, rfl⟩ | ⟨rfl, rfl⟩
  · rw [hy] at hc
    obtain rfl := Option.some.inj hc
    rw [hkbit] at hby
    obtain rfl := Option.some.inj hby
    rw [hx]
    rcases hp with ⟨hp, rfl⟩ | ⟨hp, rfl⟩
    · rw [heq hp, Option.bind_some, hbx]
      cases bx <;> cases k.isTrue <;> rfl
    · rw [hne hp, Option.bind_some, hbx]
      cases bx <;> cases k.isTrue <;> rfl
  · rw [hx] at hc
    obtain rfl := Option.some.inj hc
    rw [hkbit] at hbx
    obtain rfl := Option.some.inj hbx
    rw [hy]
    rcases hp with ⟨hp, rfl⟩ | ⟨hp, rfl⟩
    · rw [heq hp, Option.bind_some, hby]
      cases by' <;> cases k.isTrue <;> rfl
    · rw [hne hp, Option.bind_some, hby]
      cases by' <;> cases k.isTrue <;> rfl

/-- The operands of a branch are its condition and the arguments it passes. -/
theorem mem_branch_operands {branch : Branch} {v : Value} (hv : v ∈ branch.operands) :
    (∃ d ∈ branch.succs, v ∈ d.args) ∨ ∃ t f, branch = .condBr v t f := by
  cases branch with
  | br t => exact Or.inl ⟨t, List.mem_cons_self, hv⟩
  | condBr cond t f =>
    rcases List.mem_cons.mp hv with rfl | hv
    · exact Or.inr ⟨t, f, rfl⟩
    · rcases List.mem_append.mp hv with hv | hv
      · exact Or.inl ⟨t, List.mem_cons_self, hv⟩
      · exact Or.inl ⟨f, List.mem_cons_of_mem _ List.mem_cons_self, hv⟩

/-- A new terminator that has none but successors of the old one. -/
theorem Wf.retargets (hg : g.Wf A) {b : Nat} {old : Branch} (branch : Branch)
    (h : g.branch? b = some old)
    (hsuccs : ∀ d ∈ branch.succs, d ∈ old.succs)
    (hconds : ∀ cond t f, branch = .condBr cond t f → cond.ty.intWidth = some 1 ∧
      ∀ init rest, (g.block b).ops = init ++ rest → g.Reached b →
        (∀ v ∈ old.operands, g.Available b init v) → g.Available b init cond) :
    ∃ init term, Retargets A g b init term branch (fun _ => False) ∧ term.branch? = some old := by
  obtain ⟨-, init, term, hops, hterm⟩ := branch?_eq_some h
  obtain ⟨-, hsuccs', hoperands, -⟩ := Op.branch?_eq_some hterm
  have hmem : term ∈ g.ops := mem_ops_of_block (by rw [hops]; simp)
  refine ⟨init, term, ⟨hg, hops, by rw [hterm]; rfl, ?_, ?_, ?_, ?_, ?_⟩, hterm⟩
  · intro d hd
    exact Or.inl ((mem_succs_last hops d.dest).mpr ⟨d, hsuccs' ▸ hsuccs d hd, rfl⟩)
  · intro d hd
    exact hg.typed term hmem d (hsuccs' ▸ hsuccs d hd)
  · exact fun cond t f heq => (hconds cond t f heq).1
  · intro hb v hv
    refine ⟨?_, fun f hf => hf.elim⟩
    have huses : ∀ v ∈ term.operands, g.Available b init v := hg.uses b init term [] hops hb
    rcases mem_branch_operands hv with ⟨d, hd, hvd⟩ | ⟨t, f, rfl⟩
    · apply huses
      exact Op.mem_operands_of_succ (hsuccs' ▸ hsuccs d hd) hvd
    · exact (hconds v t f rfl).2 init [term] hops hb fun w hw => huses w (hoperands ▸ hw)
  · exact fun f hf => hf.elim

theorem foldBranch_eq_some {b : Nat} {branch : Branch} (h : g.foldBranch A b = some branch) :
    ∃ cond t f, g.branch? b = some (.condBr cond t f) ∧
      ((∃ direct negated, g.negatedI1Condition A cond = some (direct, negated) ∧
          branch = if negated then .condBr direct f t else .condBr direct t f) ∨
        (∃ c, g.constOperand A cond = some c ∧ branch = .br (if c.isTrue then t else f)) ∨
        t = f ∧ branch = .br t) := by
  unfold foldBranch at h
  split at h
  · rename_i cond t f hbranch
    refine ⟨cond, t, f, hbranch, ?_⟩
    split at h
    · rename_i direct negated hdirect
      exact Or.inl ⟨direct, negated, hdirect, (Option.some.inj h).symm⟩
    · obtain ⟨taken, htaken, rfl⟩ := Option.map_eq_some_iff.mp h
      right
      split at htaken
      · rename_i c hc
        left
        obtain rfl := Option.some.inj htaken
        exact ⟨c, hc, rfl⟩
      · right
        split_ifs at htaken with hsame
        obtain rfl := Option.some.inj htaken
        refine ⟨?_, rfl⟩
        cases t
        cases f
        obtain ⟨h1, h2⟩ := hsame
        cases h1
        cases h2
        rfl
  · cases h

/-- Folding the branch of a block keeps what the function does. -/
theorem Wf.fold (hg : g.Wf A) {b : Nat} {branch : Branch} (h : g.foldBranch A b = some branch) :
    Simplified A g (g.setTerminator b branch) := by
  obtain ⟨cond, t, f, hbranch, hcases⟩ := foldBranch_eq_some h
  have hold : ∀ {env : PVals} {d}, (Branch.condBr cond t f).taken env = some d →
      ∃ bit, (env cond).bind PVal.bit? = some bit ∧ d = if bit then t else f := by
    intro env d hd
    obtain ⟨bit, hbit, rfl⟩ := Option.map_eq_some_iff.mp hd
    exact ⟨bit, hbit, rfl⟩
  have hcondMem : cond ∈ (Branch.condBr cond t f).operands := List.mem_cons_self
  -- The condition is available at the terminator.
  have havail : ∀ {M : CfgMachine} {e : M.Entry} {s : M.State} {init : List Op} {term : Op},
      term.branch? = some (.condBr cond t f) → (g.block b).ops = init ++ [term] →
      M.Reachable A g e s → s.block = b → s.rest = [term] →
      (g.block s.block).ops = init ++ s.rest ∧ g.Available s.block init cond := by
    intro M e s init term hterm hops hs hb hrest
    obtain ⟨-, -, hreached⟩ := hs.located hg.toSsa
    rw [hb] at hreached ⊢
    rw [hrest]
    refine ⟨hops, hg.uses b init term [] hops hreached cond ?_⟩
    rw [(Op.branch?_eq_some hterm).2.2.1]
    exact hcondMem
  rcases hcases with ⟨direct, negated, hdirect, rfl⟩ | ⟨c, hc, rfl⟩ | ⟨rfl, rfl⟩
  · obtain ⟨init, term, hret, hterm⟩ := hg.retargets (if negated then .condBr direct f t
        else .condBr direct t f) hbranch (by
      intro d hd
      cases negated
      · exact hd
      · exact (List.mem_cons.mp hd).elim (fun h => h ▸ List.mem_cons_of_mem _ List.mem_cons_self)
          fun h => List.mem_singleton.mp h ▸ List.mem_cons_self) (by
      intro cond' t' f' heq
      obtain rfl : direct = cond' := by
        cases negated
        · exact (Branch.condBr.inj heq).1
        · exact (Branch.condBr.inj heq).1
      obtain ⟨attrs, r, lhs, rhs, c, k, -, -, -, -, hty, -⟩ := negatedI1Condition_eq_some hdirect
      exact ⟨hty, fun init rest hops hb huses =>
        hg.direct_available hdirect hops hb (huses cond hcondMem)⟩)
    refine ⟨hret.wf_setTerminator, hret.behaves_of_taken hterm fun M e s hs hb hrest d hd => ?_⟩
    obtain ⟨hops, hcond⟩ := havail hterm hret.ops_eq hs hb hrest
    obtain ⟨bit, hbit, rfl⟩ := hold hd
    have hbit' := hg.direct_bit hdirect hs hops hcond hbit
    cases negated
    · show ((s.env direct).bind PVal.bit?).map _ = _
      rw [hbit', Bool.xor_false]
      rfl
    · show ((s.env direct).bind PVal.bit?).map _ = _
      rw [hbit', Bool.xor_true]
      cases bit <;> rfl
  · obtain ⟨init, term, hret, hterm⟩ := hg.retargets (.br (if c.isTrue then t else f))
      hbranch (by
      intro d hd
      obtain rfl := List.mem_singleton.mp hd
      split_ifs
      · exact List.mem_cons_self
      · exact List.mem_cons_of_mem _ List.mem_cons_self) fun cond' t' f' heq => by cases heq
    refine ⟨hret.wf_setTerminator, hret.behaves_of_taken hterm fun M e s hs hb hrest d hd => ?_⟩
    obtain ⟨hops, hcond⟩ := havail hterm hret.ops_eq hs hb hrest
    obtain ⟨bit, hbit, rfl⟩ := hold hd
    rw [hg.const_value hc hs hops hcond] at hbit
    -- The constant is a single bit, like every condition.
    have hwidth : c.width = 1 := by
      obtain ⟨op, hdef, hconst⟩ := Option.bind_eq_some_iff.mp hc
      obtain ⟨hop, hv⟩ := definingOp_mem hdef
      have hty := hg.consts op hop c hconst cond hv
      rw [hg.conds term (mem_ops_of_block (by rw [hret.ops_eq]; simp)) cond t f hterm] at hty
      exact (Option.some.inj hty).symm
    rw [Option.bind_some, ConstOperand.bit_masked hwidth] at hbit
    obtain rfl := Option.some.inj hbit
    rfl
  · obtain ⟨init, term, hret, hterm⟩ := hg.retargets (.br t) hbranch (by
      intro d hd
      exact List.mem_cons.mpr (Or.inl (List.mem_singleton.mp hd)))
      fun cond' t' f' heq => by cases heq
    refine ⟨hret.wf_setTerminator, hret.behaves_of_taken hterm fun M e s hs hb hrest d hd => ?_⟩
    obtain ⟨bit, -, rfl⟩ := hold hd
    cases bit <;> rfl

/-- `fold_constant_branches` keeps what the function does. -/
theorem Wf.foldConstantBranches (hg : g.Wf A) : Simplified A g (g.foldConstantBranches A).1 := by
  unfold Region.foldConstantBranches
  refine List.foldlRecOn (motive := fun s : Region × Bool => Simplified A g s.1) _ _ (.refl hg) ?_
  rintro ⟨g', changed⟩ h b -
  cases hfold : g'.foldBranch A b with
  | none =>
    simp only [hfold]
    exact h
  | some branch =>
    simp only [hfold]
    exact h.trans (h.wf.fold hfold)

/-! ## Unreachable blocks -/

/-- Every block that is not empty can be reached. -/
def Pruned (g : Region) : Prop := ∀ b, (g.block b).ops ≠ [] → g.Reached b

section Prune

variable {g' : Region}

/-- The blocks that cannot be reached are emptied, all others stay. -/
theorem Wf.prune (hg : g.Wf A) (hlen : g'.blocks.length = g.blocks.length)
    (hkeep : ∀ b, g.Reached b → g'.block b = g.block b)
    (herase : ∀ b, ¬ g.Reached b → g'.block b = ⟨[], []⟩) : Simplified A g g' ∧ g'.Pruned := by
  have hops : ∀ {b done rest op}, (g'.block b).ops = done ++ op :: rest →
      g.Reached b ∧ g'.block b = g.block b := by
    intro b done rest op hops
    by_cases hb : g.Reached b
    · exact ⟨hb, hkeep b hb⟩
    · rw [herase b hb] at hops
      simp at hops
  have hmem : ∀ {op}, op ∈ g'.ops → ∃ b, g.Reached b ∧ op ∈ (g.block b).ops := by
    intro op hop
    obtain ⟨b, done, rest, hsplit⟩ := exists_split hop
    obtain ⟨hb, heq⟩ := hops hsplit
    refine ⟨b, hb, ?_⟩
    rw [← heq, hsplit]
    exact List.mem_append_right _ List.mem_cons_self
  have hedge : ∀ u v, g'.Edge u v → g.Edge u v := by
    intro u v h
    by_cases hu : g.Reached u
    · unfold Edge succs at h ⊢
      rwa [hkeep u hu] at h
    · unfold Edge succs at h
      rw [herase u hu] at h
      exact absurd h List.not_mem_nil
  have hlift : ∀ u v, g'.Edge u v →
      g.Edge u v ∨ ∃ f, (fun _ : Nat => False) f ∧ g.Edge u f ∧ g.Edge f v := fun u v h =>
    Or.inl (hedge u v h)
  have hblocks : ∀ block ∈ g'.blocks, block = ⟨[], []⟩ ∨ block ∈ g.blocks := by
    intro block hblock
    obtain ⟨b, hb, rfl⟩ := List.getElem_of_mem hblock
    rw [← block_eq_getElem hb]
    by_cases hreached : g.Reached b
    · rw [hkeep b hreached]
      exact Or.inr (block_mem (hlen ▸ hb))
    · exact Or.inl (herase b hreached)
  refine ⟨⟨⟨⟨?_, ?_, ?_, ?_⟩, ?_, ?_, ?_, ?_, ?_⟩, behaves_of_reached hg.toSsa hkeep⟩, ?_⟩
  · apply List.Sublist.nodup _ hg.nodup
    apply flatMap_defs_sublist hlen
    intro b
    by_cases hb : g.Reached b
    · rw [hkeep b hb]
    · rw [herase b hb]
      exact List.nil_sublist _
  · intro block hblock op hop
    rcases hblocks block hblock with rfl | hblock
    · exact absurd hop List.not_mem_nil
    · exact hg.terminator block hblock op hop
  · intro block hblock op hop
    rcases hblocks block hblock with rfl | hblock
    · cases hop
    · exact hg.ends block hblock op hop
  · intro op hop t ht
    obtain ⟨b, -, hop⟩ := hmem hop
    rw [hlen]
    exact hg.target op (mem_ops_of_block hop) t ht
  · intro b done op rest hsplit _ v hv
    obtain ⟨hb, heq⟩ := hops hsplit
    rcases hg.uses b done op rest (heq ▸ hsplit) hb v hv with hp | hd | ⟨a, hne, hdom, ha⟩
    · left
      rw [heq]
      exact hp
    · exact Or.inr (Or.inl hd)
    · refine Or.inr (Or.inr ⟨a, hne, hdom.lift hlift id, ?_⟩)
      rw [hkeep a (hdom.reaches hb)]
      exact ha
  · intro b hb
    have hb := Reaches.lift hlift hb
    rw [hkeep b hb]
    exact hg.ended b hb
  · intro op hop t ht
    obtain ⟨b, hb, hop⟩ := hmem hop
    rw [hg.typed op (mem_ops_of_block hop) t ht, hkeep]
    obtain ⟨done, rest, hsplit⟩ := List.append_of_mem hop
    exact hb.step (hg.toSsa.edge hsplit ht).2
  · intro op hop cond t f hbranch
    obtain ⟨b, -, hop⟩ := hmem hop
    exact hg.conds op (mem_ops_of_block hop) cond t f hbranch
  · intro op hop c hc r hr
    obtain ⟨b, -, hop⟩ := hmem hop
    exact hg.consts op (mem_ops_of_block hop) c hc r hr
  · intro b hne
    have hb : g.Reached b := by
      by_contra hb
      rw [herase b hb] at hne
      exact hne rfl
    -- A walk stays among the blocks that are kept.
    obtain ⟨visited, hwalk⟩ := hb
    have hwalk' : Walk g'.Edge 0 b visited := by
      clear hne
      induction hwalk with
      | entry => exact .entry
      | @step u v visited h he ih =>
        apply ih.step
        unfold Edge succs at he ⊢
        rwa [hkeep u ⟨_, h⟩]
    exact ⟨visited, hwalk'⟩

end Prune

theorem mem_reachableBlocks (hg : g.Ssa) (hpos : 0 < g.blocks.length) {b : Nat} :
    b ∈ g.reachableBlocks ↔ g.Reached b := by
  unfold reachableBlocks
  have hclosed : ∀ x ∈ List.range g.blocks.length, ∀ next, some (g.succs x) = some next →
      ∀ y ∈ next, y ∈ List.range g.blocks.length := by
    intro x _ next hnext y hy
    obtain rfl := Option.some.inj hnext
    exact List.mem_range.mpr (hg.succs_lt hy)
  have hfuel : flood (fun b => some (g.succs b))
      (2 + pushes (fun b => some (g.succs b)) (List.range g.blocks.length) []) [0] []
        ≠ .outOfFuel :=
    flood_ne_outOfFuel List.nodup_range hclosed
      (fun x hx => List.mem_singleton.mp hx ▸ List.mem_range.mpr hpos)
      (by rw [List.length_singleton]; omega)
  have habort : flood (fun b => some (g.succs b))
      (2 + pushes (fun b => some (g.succs b)) (List.range g.blocks.length) []) [0] []
        ≠ .aborted :=
    flood_ne_aborted fun _ h => by cases h
  dsimp only
  cases hflood : flood (fun b => some (g.succs b))
      (2 + pushes (fun b => some (g.succs b)) (List.range g.blocks.length) []) [0] [] with
  | outOfFuel => exact absurd hflood hfuel
  | aborted => exact absurd hflood habort
  | finished reachable =>
    dsimp only
    constructor
    · apply flood_invariant (p := g.Reached) _ hflood
      · exact fun x hx => List.mem_singleton.mp hx ▸ ⟨_, .entry⟩
      · exact fun x hx => absurd hx List.not_mem_nil
      · intro x next hx hnext y hy
        obtain rfl := Option.some.inj hnext
        exact hx.step hy
    · obtain ⟨hentry, hclosed⟩ := flood_singleton hflood
      rintro ⟨visited, hwalk⟩
      induction hwalk with
      | entry => exact hentry
      | step _ he ih =>
        obtain ⟨next, hnext, hsub⟩ := hclosed _ ih
        obtain rfl := Option.some.inj hnext
        exact hsub _ he

/-- `remove_unreachable_blocks` keeps what the function does, and leaves
    nothing that cannot be reached. -/
theorem Wf.removeUnreachableBlocks (hg : g.Wf A) :
    Simplified A g g.removeUnreachableBlocks.1 ∧ g.removeUnreachableBlocks.1.Pruned := by
  have hblock : ∀ (dead : List Nat) (g : Region) (c : Nat),
      (dead.foldl eraseBlock g).block c = if c ∈ dead then ⟨[], []⟩ else g.block c := by
    intro dead
    induction dead with
    | nil => exact fun _ _ => rfl
    | cons b dead ih =>
      intro g c
      rw [List.foldl_cons, ih, block_eraseBlock]
      by_cases hc : c ∈ dead
      · rw [if_pos hc, if_pos (List.mem_cons_of_mem _ hc)]
      · rw [if_neg hc]
        by_cases hcb : c = b
        · rw [if_pos hcb, if_pos (hcb ▸ List.mem_cons_self)]
        · rw [if_neg hcb, if_neg (by simp [hcb, hc])]
  have hlen : ∀ (dead : List Nat) (g : Region),
      (dead.foldl eraseBlock g).blocks.length = g.blocks.length := by
    intro dead
    induction dead with
    | nil => exact fun _ => rfl
    | cons b dead ih =>
      intro g
      rw [List.foldl_cons, ih, eraseBlock, length_setBlock]
  have hempty : ∀ c, ¬ c < g.blocks.length → g.block c = ⟨[], []⟩ := by
    intro c hc
    unfold Region.block
    rw [List.getD_eq_getElem?_getD, List.getElem?_eq_none (Nat.not_lt.mp hc)]
    rfl
  apply hg.prune
  · exact hlen _ g
  · intro b hb
    unfold Region.removeUnreachableBlocks
    dsimp only
    rw [hblock, if_neg]
    intro hdead
    obtain ⟨hlt, hdead⟩ := List.mem_filter.mp hdead
    have hlt := List.mem_range.mp hlt
    exact (of_decide_eq_true hdead).1 ((mem_reachableBlocks hg.toSsa (by omega)).mpr hb)
  · intro b hb
    unfold Region.removeUnreachableBlocks
    dsimp only
    rw [hblock]
    by_cases hlt : b < g.blocks.length
    · by_cases hne : g.block b = ⟨[], []⟩
      · split_ifs
        · rfl
        · exact hne
      · rw [if_pos]
        refine List.mem_filter.mpr ⟨List.mem_range.mpr hlt, decide_eq_true ⟨?_, hne⟩⟩
        exact fun h => hb ((mem_reachableBlocks hg.toSsa (by omega)).mp h)
    · rw [hempty b hlt]
      split_ifs <;> rfl

end Region

end Crabbit.Llvm
