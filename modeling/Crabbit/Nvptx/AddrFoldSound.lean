/-
  Crabbit.Nvptx.AddrFoldSound

  When folded addresses are exact.

  Everything the folder does is modular arithmetic on 64 bits, or guarded by a
  bound of `range_max`.  The bounds are right, but for one rule: that of an
  `and` with a constant cuts the constant to 32 bits, whatever the width of
  the operation.  In every state a thread gets to, the bounds and the folded
  addresses are right if and only if no `and` the analysis was asked about has
  a result of `2 ^ 32` or more.
-/

import Crabbit.Nvptx.AddrFold
import Crabbit.Nvptx.Views
import Mathlib.Data.BitVec
import Mathlib.Tactic.ByContra
import Mathlib.Tactic.Ring

namespace Crabbit.Nvptx

open Crabbit.Llvm (Value Ty GepIndex)

/-! ## Definitions -/

theorem mem_of_definingOp {k : Kernel} {v : Value} {inst : Inst}
    (h : definingOp k v = some inst) : inst ∈ k.insts ∧ v ∈ inst.results :=
  ⟨List.mem_of_find?_eq_some h, by simpa using List.find?_some h⟩

theorem widthOf_of_intWidth_isSome {ty : Ty} (h : ty.intWidth.isSome = true) :
    ∃ width, widthOf ty = some width := by
  cases ty
  case int width sign => exact ⟨width, rfl⟩
  all_goals cases h

/-- Operands have the width of the result. -/
theorem widths_bin {k : Kernel} (htyped : k.Typed) {v : Value} {kind : BinKind} {r a b : Value}
    (hdef : definingOp k v = some (.bin kind r a b)) :
    ∃ width, widthOf v.ty = some width ∧ widthOf a.ty = some width ∧
      widthOf b.ty = some width := by
  obtain ⟨hinst, hv⟩ := mem_of_definingOp hdef
  obtain rfl : v = r := List.mem_singleton.mp hv
  obtain ⟨hint, hlhs, hrhs⟩ := htyped _ hinst
  obtain ⟨width, hwidth⟩ := widthOf_of_intWidth_isSome hint
  exact ⟨width, hwidth, by rw [hlhs, hwidth], by rw [hrhs, hwidth]⟩

namespace View

variable {k : Kernel} {thread : Thread} (V : View k thread)

abbrev bits (v : Value) : Nat := V.env.bits v

variable {V} {v : Value}

/-- The bits of a live value are what its definition makes them. -/
theorem yields_bits {inst : Inst} (hdef : definingOp k v = some inst) (hlive : V.live v) :
    ∃ val, V.env v = some val ∧ V.bits v = val.bits ∧ Yields thread V.env inst v val := by
  obtain ⟨hinst, hv⟩ := mem_of_definingOp hdef
  obtain ⟨val, hval, -⟩ := V.fits v hlive
  exact ⟨val, hval, by rw [bits, Env.bits, hval]; rfl, V.yields inst hinst v hv hlive val hval⟩

theorem live_operand {inst : Inst} (hdef : definingOp k v = some inst) (hlive : V.live v)
    {w : Value} (hw : w ∈ inst.operands) : V.live w := by
  obtain ⟨hinst, hv⟩ := mem_of_definingOp hdef
  exact V.closed inst hinst v hv hlive w hw

theorem bits_lt (hlive : V.live v) {width : Nat} (hwidth : widthOf v.ty = some width) :
    V.bits v < 2 ^ width := by
  obtain ⟨val, hval, hfits⟩ := V.fits v hlive
  rw [bits, Env.bits, hval]
  exact hfits width hwidth

/-- A constant has the bits and the width the folder reads. -/
theorem bits_const {imm width : Nat} (h : constOf k v = some (imm, width)) (hlive : V.live v) :
    V.bits v = imm ∧ widthOf v.ty = some width ∧ imm < 2 ^ width := by
  unfold constOf at h
  split at h
  · rename_i r bits hdef
    obtain ⟨w, hw, heq⟩ := Option.map_eq_some_iff.mp h
    obtain ⟨rfl, rfl⟩ := Prod.mk.inj heq
    obtain rfl : v = r := List.mem_singleton.mp (mem_of_definingOp hdef).2
    obtain ⟨val, -, hbits, hyields⟩ := yields_bits hdef hlive
    exact ⟨by rw [hbits, hyields w hw], hw, Nat.mod_lt _ (Nat.two_pow_pos w)⟩
  · cases h

/-- Integer operations, in the width of their result. -/
theorem bits_bin (htyped : k.Typed) {kind : BinKind} {r a b : Value}
    (hdef : definingOp k v = some (.bin kind r a b)) (hlive : V.live v) :
    ∃ width, widthOf v.ty = some width ∧ V.live a ∧ V.live b ∧
      V.bits v = kind.eval width (V.bits a) (V.bits b) := by
  obtain ⟨width, hwidth, -, -⟩ := widths_bin htyped hdef
  obtain rfl : v = r := List.mem_singleton.mp (mem_of_definingOp hdef).2
  obtain ⟨val, -, hbits, hyields⟩ := yields_bits hdef hlive
  refine ⟨width, hwidth, ?_, ?_, hbits.trans (hyields width hwidth)⟩
  · exact live_operand hdef hlive List.mem_cons_self
  · exact live_operand hdef hlive (List.mem_cons_of_mem _ List.mem_cons_self)

theorem bits_zext {r inner : Value}
    (hdef : definingOp k v = some (.zext r inner)) (hlive : V.live v) :
    V.live inner ∧ V.bits v = V.bits inner := by
  obtain ⟨val, -, hbits, hyields⟩ := yields_bits hdef hlive
  exact ⟨live_operand hdef hlive List.mem_cons_self, hbits.trans hyields⟩

end View

/-! ## Bounds -/

section Bounds

variable {k : Kernel} {thread : Thread} (V : View k thread)

/-- A bound, if there is one, is above the value. -/
def Bounds (v : Value) (bound : Option Nat) : Prop := ∀ x, bound = some x → V.bits v ≤ x

/-- The result of an `and` with a constant fits in the 32 bits its bound is
    cut to. -/
def NarrowAnd (v : Value) : Prop :=
  ∀ a c imm width, .bin .and v a c ∈ k.insts → constOf k c = some (imm, width) →
    V.bits v < 2 ^ 32

/-- A rule makes a bound of the value from bounds of its operands. -/
def RangeRule.Sound (v : Value) : RangeRule → Prop
  | .known bound => Bounds V v bound
  | .one operand f => V.live operand ∧ ∀ bound, Bounds V operand bound → Bounds V v (f bound)
  | .two a b f => V.live a ∧ V.live b ∧
      ∀ x y, V.bits a ≤ x → V.bits b ≤ y → V.bits v ≤ f x y

variable {V} {v : Value}

theorem bounds_none : Bounds V v none := fun _ h => by cases h

theorem bounds_some {x : Nat} (h : V.bits v ≤ x) : Bounds V v (some x) := fun y hy => by
  obtain rfl := Option.some.inj hy
  exact h

theorem bounds_capBound {x : Nat} (h : V.bits v ≤ x) : Bounds V v (capBound x) := by
  unfold capBound
  split
  · exact bounds_none
  · exact bounds_some h

theorem bounds_bind {w : Value} {bound : Option Nat} {f : Nat → Option Nat}
    (hbound : Bounds V w bound) (h : ∀ x, V.bits w ≤ x → Bounds V v (f x)) :
    Bounds V v (bound.bind f) := by
  cases bound with
  | none => exact bounds_none
  | some x => exact h x (hbound x rfl)

/-- The launch limits are those of the hardware. -/
theorem sreg_le_sregMax (thread : Thread) (reg : Sreg) {x : Nat} (h : sregMax reg = some x) :
    thread.sreg reg ≤ x := by
  have hblock := thread.block
  have hgrid := thread.grid
  have hinBlock := thread.inBlock
  have hinGrid := thread.inGrid
  have hlane := thread.inWarp
  cases reg <;> simp only [sregMax, Option.some.injEq, reduceCtorEq] at h <;>
    simp only [Thread.sreg] <;> omega

theorem and_le_of_lt {a c m : Nat} (h : (a &&& c) < m ∨ a < m) (hm : ∃ n, m = 2 ^ n) :
    a &&& c ≤ c % m := by
  obtain ⟨n, rfl⟩ := hm
  have hlt : a &&& c < 2 ^ n := by
    rcases h with h | h
    · exact h
    · exact Nat.lt_of_le_of_lt Nat.and_le_left h
  rw [← Nat.mod_eq_of_lt hlt, Nat.and_mod_two_pow]
  exact Nat.and_le_right

theorem rangeRule_sound (htyped : k.Typed) (hlive : V.live v) (hand : NarrowAnd V v) :
    (rangeRule k v).Sound V v := by
  unfold rangeRule
  split
  · -- A constant is its own bound.
    rename_i imm width hconst
    obtain ⟨hbits, -, hlt⟩ := V.bits_const hconst hlive
    show Bounds V v _
    split
    · exact bounds_none
    · rename_i hwidth
      apply bounds_some
      rw [hbits, Nat.mod_eq_of_lt]
      exact Nat.lt_of_lt_of_le hlt (Nat.pow_le_pow_right (by decide) (Nat.not_lt.mp hwidth))
  · split
    · rename_i results callee operands hdef
      obtain ⟨val, -, hbits, hyields⟩ := V.yields_bits hdef hlive
      intro x hx
      obtain ⟨reg, hreg, hmax⟩ := Option.bind_eq_some_iff.mp hx
      rw [hbits, hyields.1 reg hreg]
      exact sreg_le_sregMax thread reg hmax
    · rename_i r a b hdef
      obtain ⟨width, -, ha, hb, hbits⟩ := V.bits_bin htyped hdef hlive
      refine ⟨ha, hb, fun x y hx hy => ?_⟩
      rw [hbits]
      exact Nat.le_trans (Nat.mod_le _ _) (Nat.add_le_add hx hy)
    · rename_i r a b hdef
      obtain ⟨width, -, ha, hb, hbits⟩ := V.bits_bin htyped hdef hlive
      refine ⟨ha, hb, fun x y hx hy => ?_⟩
      rw [hbits]
      exact Nat.le_trans (Nat.mod_le _ _) (Nat.mul_le_mul hx hy)
    · rename_i r a b hdef
      obtain ⟨width, -, ha, hb, hbits⟩ := V.bits_bin htyped hdef hlive
      split
      · rename_i imm w hconst
        split
        · exact bounds_none
        · refine ⟨ha, fun bound hbound => bounds_bind hbound fun x hx => bounds_capBound ?_⟩
          rw [hbits, (V.bits_const hconst hb).1]
          exact Nat.le_trans (Nat.mod_le _ _) (Nat.mul_le_mul_right _ hx)
      · exact bounds_none
    · rename_i r a b hdef
      obtain ⟨width, -, ha, hb, hbits⟩ := V.bits_bin htyped hdef hlive
      split
      · rename_i imm w hconst
        split
        · exact bounds_none
        · refine ⟨ha, fun bound hbound => bounds_bind hbound fun x hx => bounds_capBound ?_⟩
          rw [hbits, (V.bits_const hconst hb).1]
          exact Nat.div_le_div_right hx
      · exact bounds_none
    · rename_i r a b hdef
      obtain ⟨width, -, ha, hb, hbits⟩ := V.bits_bin htyped hdef hlive
      obtain rfl : v = r := List.mem_singleton.mp (mem_of_definingOp hdef).2
      refine ⟨ha, fun bound hbound => ?_⟩
      have hleft : ∀ x, bound = some x → V.bits v ≤ x := fun x hx => by
        rw [hbits]
        exact Nat.le_trans Nat.and_le_left (hbound x hx)
      have hright : ∀ imm w, constOf k b = some (imm, w) → V.bits v ≤ imm % 2 ^ 32 := by
        intro imm w hconst
        have hnarrow := hand a b imm w (mem_of_definingOp hdef).1 hconst
        rw [hbits] at hnarrow ⊢
        rw [← (V.bits_const hconst hb).1]
        exact and_le_of_lt (.inl hnarrow) ⟨32, rfl⟩
      cases hconst : constOf k b with
      | none =>
          cases bound with
          | none => exact bounds_none
          | some x => exact bounds_capBound (hleft x rfl)
      | some c =>
          have hc := hright c.1 c.2 hconst
          cases bound with
          | none => exact bounds_capBound hc
          | some x => exact bounds_capBound (Nat.le_min.mpr ⟨hleft x rfl, hc⟩)
    · rename_i r cond a b hdef
      obtain ⟨val, hval, hbits, hyields⟩ := V.yields_bits hdef hlive
      have ha : V.live a := V.live_operand hdef hlive (by simp [Inst.operands])
      have hb : V.live b := V.live_operand hdef hlive (by simp [Inst.operands])
      refine ⟨ha, hb, fun x y hx hy => ?_⟩
      have hchosen : V.bits v = V.bits a ∨ V.bits v = V.bits b := by
        have hyields : V.env (if V.env.bits cond = 0 then b else a) = some val := hyields
        split at hyields
        · exact .inr (by rw [hbits, View.bits, Env.bits, hyields]; rfl)
        · exact .inl (by rw [hbits, View.bits, Env.bits, hyields]; rfl)
      rcases hchosen with h | h
      · exact h ▸ Nat.le_trans hx (Nat.le_max_left _ _)
      · exact h ▸ Nat.le_trans hy (Nat.le_max_right _ _)
    · rename_i r inner hdef
      obtain ⟨hinner, hbits⟩ := V.bits_zext hdef hlive
      split
      · rename_i width hwidth
        split
        · exact bounds_none
        · have hlt := V.bits_lt hinner hwidth
          refine ⟨hinner, fun bound hbound => bounds_capBound ?_⟩
          rw [hbits]
          cases bound with
          | none => simp only [Option.getD_none, Nat.min_self]; omega
          | some x =>
              have := hbound x rfl
              simp only [Option.getD_some]
              omega
      · exact bounds_none
    · rename_i r inner hdef
      obtain rfl : v = r := List.mem_singleton.mp (mem_of_definingOp hdef).2
      obtain ⟨val, -, hbits, hyields⟩ := V.yields_bits hdef hlive
      split
      · rename_i width hwidth
        refine ⟨V.live_operand hdef hlive List.mem_cons_self, fun bound hbound =>
          bounds_bind hbound fun x hx => ?_⟩
        split
        · apply bounds_capBound
          rw [hbits, hyields width hwidth]
          exact Nat.le_trans (Nat.mod_le _ _) hx
        · exact bounds_none
      · exact bounds_none
    · exact bounds_none

end Bounds

/-! ## The memo -/

/-- An `and` with a constant right operand. -/
def ConstAnd (k : Kernel) (v : Value) : Prop :=
  ∃ a c imm width, .bin .and v a c ∈ k.insts ∧ constOf k c = some (imm, width)

/-- The value has an entry, which does not bound it by 32 bits. -/
def Unbounded (memo : RangeMemo) (v : Value) : Prop :=
  memo v ≠ none ∧ ∀ x, memo v = some (some x) → 2 ^ 32 ≤ x

section Memo

variable {k : Kernel} {thread : Thread} (V : View k thread)

/-- Entries bound their values. -/
def MemoSound (memo : RangeMemo) : Prop :=
  ∀ v bound, memo v = some bound → V.live v → Bounds V v bound

/-- The values with an entry are no wide `and`. -/
def AndsNarrow (memo : RangeMemo) : Prop := ∀ v, memo v ≠ none → V.live v → NarrowAnd V v

/-- What asking for bounds makes of a memo. -/
structure Extends (memo memo' : RangeMemo) : Prop where
  grows : ∀ v, memo v ≠ none → memo' v ≠ none
  sound : AndsNarrow V memo' → MemoSound V memo → MemoSound V memo'
  bounded : ∀ v, ConstAnd k v → Unbounded memo' v → Unbounded memo v

variable {V}

theorem Extends.refl (memo : RangeMemo) : Extends V memo memo :=
  ⟨fun _ h => h, fun _ h => h, fun _ _ h => h⟩

theorem AndsNarrow.of_extends {memo memo' : RangeMemo} (hnarrow : AndsNarrow V memo')
    (h : Extends V memo memo') : AndsNarrow V memo := fun v hv => hnarrow v (h.grows v hv)

theorem Extends.trans {memo memo' memo'' : RangeMemo} (h : Extends V memo memo')
    (h' : Extends V memo' memo'') : Extends V memo memo'' where
  grows v hv := h'.grows v (h.grows v hv)
  sound hnarrow hmemo := h'.sound hnarrow (h.sound (hnarrow.of_extends h') hmemo)
  bounded v hand hv := h.bounded v hand (h'.bounded v hand hv)

/-- Asking extends the memo, and gets bounds. -/
structure Asks (V : View k thread) (ask : Value → RangeMemo → Option Nat × RangeMemo) : Prop where
  extends_ : ∀ v memo, Extends V memo (ask v memo).2
  bounds : ∀ v memo, AndsNarrow V (ask v memo).2 → MemoSound V memo → V.live v →
    Bounds V v (ask v memo).1

variable {ask : Value → RangeMemo → Option Nat × RangeMemo} {v : Value} {memo : RangeMemo}

theorem RangeRule.eval_extends (hask : Asks V ask) (rule : RangeRule) (memo : RangeMemo) :
    Extends V memo (rule.eval ask memo).2 := by
  cases rule with
  | known bound => exact .refl memo
  | one operand f => exact hask.extends_ operand memo
  | two a b f =>
      have ha := hask.extends_ a memo
      simp only [eval]
      split
      · rename_i memo' h
        rw [h] at ha
        exact ha
      · rename_i x memo' h
        rw [h] at ha
        exact ha.trans (hask.extends_ b memo')

theorem RangeRule.eval_bounds (hask : Asks V ask) {rule : RangeRule} (hrule : rule.Sound V v)
    (hnarrow : AndsNarrow V (rule.eval ask memo).2) (hmemo : MemoSound V memo) :
    Bounds V v (rule.eval ask memo).1 := by
  cases rule with
  | known bound => exact hrule
  | one operand f =>
      obtain ⟨hoperand, hf⟩ := hrule
      exact hf _ (hask.bounds operand memo hnarrow hmemo hoperand)
  | two a b f =>
      obtain ⟨ha, hb, hf⟩ := hrule
      have hbounds := hask.bounds a memo
      have hextends := hask.extends_ a memo
      simp only [eval] at hnarrow ⊢
      split
      · exact bounds_none
      · rename_i x memo' h
        simp only [h] at hbounds hextends hnarrow
        have hextends' := hask.extends_ b memo'
        have hx := hbounds (hnarrow.of_extends hextends') hmemo ha x rfl
        have hmemo' := hextends.sound (hnarrow.of_extends hextends') hmemo
        refine bounds_bind (hask.bounds b memo' hnarrow hmemo' hb) fun y hy => ?_
        exact bounds_capBound (hf x y hx hy)

end Memo

/-- The definition of a value is found. -/
theorem definingOp_of_mem {k : Kernel} (hssa : k.region.Ssa) {inst : Inst} (hinst : inst ∈ k.insts)
    {v : Value} (hv : v ∈ inst.results) : definingOp k v = some inst := by
  cases hdef : definingOp k v with
  | none =>
      have hnone := List.find?_eq_none.mp hdef inst hinst
      exact absurd (decide_eq_true hv) hnone
  | some inst' =>
      obtain ⟨hinst', hv'⟩ := mem_of_definingOp hdef
      rw [Kernel.inst_unique hssa hinst' hinst hv' hv]

/-- The bound of an `and` with a constant fits in 32 bits. -/
theorem exists_bound_of_constAnd {k : Kernel} (hssa : k.region.Ssa) {v : Value}
    (h : ConstAnd k v) (ask : Value → RangeMemo → Option Nat × RangeMemo) (memo : RangeMemo) :
    ∃ x, ((rangeRule k v).eval ask memo).1 = some x ∧ x < 2 ^ 32 := by
  obtain ⟨a, c, imm, width, hinst, hconst⟩ := h
  have hdef := definingOp_of_mem hssa hinst (v := v) List.mem_cons_self
  have hnone : constOf k v = none := by
    unfold constOf
    rw [hdef]
  have hcap : ∀ bound : Option Nat, ∃ x,
      (andBound bound (some (imm % 2 ^ 32))).bind capBound = some x ∧ x < 2 ^ 32 := by
    have himm : imm % 2 ^ 32 < 2 ^ 32 := Nat.mod_lt _ (by decide)
    have hle : ∀ y, y ≤ imm % 2 ^ 32 → ∃ x, capBound y = some x ∧ x < 2 ^ 32 := by
      intro y hy
      refine ⟨y, if_neg ?_, by omega⟩
      unfold U32_MAX
      omega
    intro bound
    cases bound with
    | none => exact hle _ (Nat.le_refl _)
    | some x => exact hle _ (Nat.min_le_right _ _)
  unfold rangeRule
  rw [hnone, hdef]
  simp only [RangeRule.eval, hconst, Option.map_some]
  exact hcap _

theorem asks_rangeMax {k : Kernel} (hssa : k.region.Ssa) (htyped : k.Typed) {thread : Thread}
    (V : View k thread) (fuel : Nat) : Asks V (rangeMax k fuel) := by
  induction fuel with
  | zero => exact ⟨fun _ memo => .refl memo, fun _ _ _ _ _ => bounds_none⟩
  | succ fuel ih =>
      -- The entry of a value that is asked for the first time.
      have hnew : ∀ v memo, memo v = none → ∀ bound memo',
          (rangeRule k v).eval (rangeMax k fuel) (Function.update memo v (some none)) =
            (bound, memo') →
          Extends V memo (Function.update memo' v (some bound)) ∧
            (AndsNarrow V (Function.update memo' v (some bound)) → MemoSound V memo →
              V.live v → Bounds V v bound) := by
        intro v memo hnone bound memo' heval
        have hextends : Extends V (Function.update memo v (some none)) memo' := by
          have h := RangeRule.eval_extends ih (rangeRule k v) (Function.update memo v (some none))
          rw [heval] at h
          exact h
        have hseed : MemoSound V memo → MemoSound V (Function.update memo v (some none)) := by
          intro hmemo u b hu hlive
          by_cases huv : u = v
          · subst huv
            rw [Function.update_self] at hu
            obtain rfl := Option.some.inj hu
            exact bounds_none
          · rw [Function.update_of_ne huv] at hu
            exact hmemo u b hu hlive
        have hdomain : ∀ u, memo' u ≠ none → Function.update memo' v (some bound) u ≠ none := by
          intro u hu
          by_cases huv : u = v
          · subst huv
            rw [Function.update_self]
            exact nofun
          · rw [Function.update_of_ne huv]
            exact hu
        have hbounds : AndsNarrow V (Function.update memo' v (some bound)) → MemoSound V memo →
            V.live v → Bounds V v bound := by
          intro hnarrow hmemo hlive
          have hand := hnarrow v (by rw [Function.update_self]; exact nofun) hlive
          have hrule := rangeRule_sound htyped hlive hand
          have h (hnarrow' : AndsNarrow V
              ((rangeRule k v).eval (rangeMax k fuel) (Function.update memo v (some none))).2)
              (hmemo' : MemoSound V (Function.update memo v (some none))) :=
            RangeRule.eval_bounds ih hrule hnarrow' hmemo'
          rw [heval] at h
          exact h (fun u hu => hnarrow u (hdomain u hu)) (hseed hmemo)
        refine ⟨⟨?_, ?_, ?_⟩, hbounds⟩
        · intro u hu
          apply hdomain
          apply hextends.grows
          by_cases huv : u = v
          · subst huv
            exact absurd hnone hu
          · rw [Function.update_of_ne huv]
            exact hu
        · intro hnarrow hmemo u b hu hlive
          by_cases huv : u = v
          · subst huv
            rw [Function.update_self] at hu
            obtain rfl := Option.some.inj hu
            exact hbounds hnarrow hmemo hlive
          · rw [Function.update_of_ne huv] at hu
            exact hextends.sound (fun w hw => hnarrow w (hdomain w hw)) (hseed hmemo) u b hu hlive
        · intro u hand hunbounded
          by_cases huv : u = v
          · subst huv
            obtain ⟨x, hx, hlt⟩ := exists_bound_of_constAnd hssa hand (rangeMax k fuel)
              (Function.update memo u (some none))
            rw [heval] at hx
            have hle := hunbounded.2 x (by
              rw [Function.update_self]
              exact congrArg some hx)
            omega
          · have hold : Unbounded memo' u := by
              unfold Unbounded at hunbounded
              rw [Function.update_of_ne huv] at hunbounded
              exact hunbounded
            have hseeded := hextends.bounded u hand hold
            unfold Unbounded at hseeded
            rw [Function.update_of_ne huv] at hseeded
            exact hseeded
      constructor
      · intro v memo
        unfold rangeMax
        split
        · exact .refl memo
        · rename_i hnone
          exact (hnew v memo hnone _ _ rfl).1
      · intro v memo
        unfold rangeMax
        split
        · rename_i cached hcached
          exact fun _ hmemo hlive => hmemo v cached hcached hlive
        · rename_i hnone
          exact (hnew v memo hnone _ _ rfl).2

/-! ## Sums of terms -/

/-- The value of a term, widened to 64 bits. -/
def Term.widen (env : Env) (term : Term) : BitVec 64 :=
  match term.kind with
  | .i64 => BitVec.ofNat 64 (env.bits term.value)
  | .zext32 => BitVec.ofNat 64 (env.bits term.value % 2 ^ 32)
  | .sext width => sextBits width (env.bits term.value)

/-- What terms contribute to an address. -/
def termSum (env : Env) : List Term → BitVec 64
  | [] => 0
  | term :: terms => term.widen env * term.scale + termSum env terms

/-- The address a plan stands for. -/
def FoldedAddr.value (env : Env) (addr : FoldedAddr) : BitVec 64 :=
  BitVec.ofNat 64 (env.bits addr.root) + termSum env addr.terms + addr.offset

theorem termSum_append (env : Env) (a b : List Term) :
    termSum env (a ++ b) = termSum env a + termSum env b := by
  induction a with
  | nil => simp only [List.nil_append, termSum, BitVec.ofNat_eq_ofNat, BitVec.zero_add]
  | cons term a ih => rw [List.cons_append, termSum, termSum, ih, BitVec.add_assoc]

theorem Spine.termSum_push (env : Env) (s : Spine) (v : Value) (scale : BitVec 64)
    (kind : TermKind) : termSum env (s.push v scale kind).terms =
      termSum env s.terms + Term.widen env ⟨v, scale, kind⟩ * scale := by
  rw [push, termSum_append, termSum, termSum]
  simp only [BitVec.ofNat_eq_ofNat, BitVec.add_zero]

theorem ofNat_two_pow (n : Nat) : BitVec.ofNat 64 (2 ^ n) = 1#64 <<< n := by
  apply BitVec.eq_of_toNat_eq
  rw [BitVec.toNat_shiftLeft, BitVec.toNat_ofNat, Nat.shiftLeft_eq]
  simp

theorem widen_zext32 {env : Env} {v : Value} {scale : BitVec 64} (h : env.bits v < 2 ^ 32) :
    Term.widen env ⟨v, scale, .zext32⟩ = BitVec.ofNat 64 (env.bits v) := by
  show BitVec.ofNat 64 (env.bits v % 2 ^ 32) = _
  rw [Nat.mod_eq_of_lt h]

/-- A term adds to the terms of its value and kind. -/
theorem termSum_mergeTerm (env : Env) (merged : List Term) (term : Term) :
    termSum env (mergeTerm merged term) = termSum env merged + term.widen env * term.scale := by
  induction merged with
  | nil =>
      simp only [mergeTerm, termSum]
      ring
  | cons m merged ih =>
      unfold mergeTerm
      split
      · rename_i hsame
        have hwiden : term.widen env = m.widen env := by
          unfold Term.widen
          rw [hsame.1, hsame.2]
        rw [termSum, termSum, hwiden]
        show m.widen env * (m.scale + term.scale) + termSum env merged = _
        ring
      · rw [termSum, termSum, ih]
        ring

theorem termSum_mergeTerms (env : Env) (terms : List Term) :
    termSum env (mergeTerms terms) = termSum env terms := by
  have hfilter : ∀ l : List Term,
      termSum env (l.filter fun term => term.scale ≠ 0) = termSum env l := by
    intro l
    induction l with
    | nil => rfl
    | cons term l ih =>
        rw [termSum, List.filter_cons]
        split
        · rw [termSum, ih]
        · rename_i hzero
          have hzero : term.scale = 0 := by simpa using hzero
          rw [ih, hzero]
          ring
  have hfold : ∀ (l merged : List Term), termSum env (l.foldl (fun merged term =>
      if term.scale = 0 then merged else mergeTerm merged term) merged) =
        termSum env merged + termSum env l := by
    intro l
    induction l with
    | nil =>
        intro merged
        rw [List.foldl_nil, termSum]
        ring
    | cons term l ih =>
        intro merged
        rw [List.foldl_cons, ih, termSum]
        split
        · rename_i hzero
          rw [hzero]
          ring
        · rw [termSum_mergeTerm]
          ring
  rw [mergeTerms, hfilter, hfold, termSum]
  ring

/-! ## Decomposing 32 bits -/

section Decompose

variable {k : Kernel} {thread : Thread} {V : View k thread} {v : Value}

/-- What a split says of a value of 32 bits. -/
def Split.Sound (V : View k thread) (v : Value) : Split → Prop
  | .opaqueTerm => True
  | .sum a b => widthOf a.ty = some 32 ∧ widthOf b.ty = some 32 ∧
      (V.live v → V.live a ∧ V.live b ∧ V.bits v = (V.bits a + V.bits b) % 2 ^ 32)
  | .scaled other factor => widthOf other.ty = some 32 ∧
      (V.live v → V.live other ∧ V.bits v = V.bits other * factor % 2 ^ 32)

theorem splitRule_sound (htyped : k.Typed) (hwidth : widthOf v.ty = some 32) :
    (splitRule k v).Sound V v := by
  have hwidths : ∀ {kind r a b}, definingOp k v = some (.bin kind r a b) →
      widthOf a.ty = some 32 ∧ widthOf b.ty = some 32 := by
    intro kind r a b hdef
    obtain ⟨width, hw, hwa, hwb⟩ := widths_bin htyped hdef
    obtain rfl := Option.some.inj (hwidth.symm.trans hw)
    exact ⟨hwa, hwb⟩
  have hbin : ∀ {kind r a b}, definingOp k v = some (.bin kind r a b) → V.live v →
      V.live a ∧ V.live b ∧ V.bits v = kind.eval 32 (V.bits a) (V.bits b) := by
    intro kind r a b hdef hlive
    obtain ⟨width, hw, ha, hb, hbits⟩ := V.bits_bin htyped hdef hlive
    obtain rfl := Option.some.inj (hwidth.symm.trans hw)
    exact ⟨ha, hb, hbits⟩
  have hconst : ∀ {c imm width}, constOf k c = some (imm, width) → widthOf c.ty = some 32 →
      V.live c → V.bits c = imm % 2 ^ 32 := by
    intro c imm width hc hwc hlivec
    obtain ⟨hbits, hw, hlt⟩ := V.bits_const hc hlivec
    obtain rfl := Option.some.inj (hwc.symm.trans hw)
    rw [hbits, Nat.mod_eq_of_lt hlt]
  unfold splitRule
  split
  · rename_i r a b hdef
    exact ⟨(hwidths hdef).1, (hwidths hdef).2, hbin hdef⟩
  · rename_i r a b hdef
    obtain ⟨hwa, hwb⟩ := hwidths hdef
    split
    · rename_i imm _ hc
      refine ⟨hwa, fun hlive => ?_⟩
      obtain ⟨ha, hb, hbits⟩ := hbin hdef hlive
      refine ⟨ha, ?_⟩
      rw [hbits, ← hconst hc hwb hb]
      rfl
    · rename_i imm _ _ hc
      refine ⟨hwb, fun hlive => ?_⟩
      obtain ⟨ha, hb, hbits⟩ := hbin hdef hlive
      refine ⟨hb, ?_⟩
      rw [hbits, ← hconst hc hwa ha, Nat.mul_comm]
      rfl
    · exact trivial
  · rename_i r a b hdef
    split
    · rename_i imm _ hc
      split
      · exact trivial
      · refine ⟨(hwidths hdef).1, fun hlive => ?_⟩
        obtain ⟨ha, hb, hbits⟩ := hbin hdef hlive
        refine ⟨ha, ?_⟩
        rw [hbits, ← (V.bits_const hc hb).1]
        rfl
    · exact trivial
  · exact trivial

variable (hssa : k.region.Ssa) (htyped : k.Typed)

include hssa htyped in
theorem rangeMaxOf_asks (V : View k thread) : Asks V (rangeMaxOf k) :=
  asks_rangeMax hssa htyped V _

/-- No operation of 32 bits that decomposing a value splits wraps around. -/
def decomposeFits (k : Kernel) (bits : Value → Nat) : Nat → Value → BitVec 64 → Spine → Prop
  | depth, v, scale, s =>
      if scale = 0 then True
      else
        match constOf k v with
        | some _ => True
        | none =>
            match depth, splitRule k v with
            | depth + 1, .sum a b =>
                let boundA := rangeMaxOf k a s.memo
                let boundB := rangeMaxOf k b boundA.2
                let s : Spine := { s with memo := boundB.2 }
                match boundA.1, boundB.1 with
                | some maxA, some maxB =>
                    if maxA + maxB > U32_MAX then True
                    else bits a + bits b < 2 ^ 32 ∧ decomposeFits k bits depth a scale s ∧
                      decomposeFits k bits depth b scale (decomposeZext32 k depth a scale s).2
                | _, _ => True
            | depth + 1, .scaled other factor =>
                let bound := rangeMaxOf k other s.memo
                let s : Spine := { s with memo := bound.2 }
                match bound.1 with
                | some maxOther =>
                    if maxOther * factor > U32_MAX then True
                    else bits other * factor < 2 ^ 32 ∧
                      decomposeFits k bits depth other (scale * BitVec.ofNat 64 factor) s
                | none => True
            | _, _ => True

/-- What decomposing a value adds to the terms, nothing wrapping that is split;
    with bounds of all it asks for, nothing does. -/
structure Decomposes (V : View k thread) (fits : Prop) (v : Value) (scale : BitVec 64) (s : Spine)
    (r : BitVec 64 × Spine) : Prop where
  extends_ : Extends V s.memo r.2.memo
  fits_of : AndsNarrow V r.2.memo → MemoSound V s.memo → V.live v → fits
  sum : fits → V.live v →
    termSum V.env r.2.terms + r.1 = termSum V.env s.terms + BitVec.ofNat 64 (V.bits v) * scale

theorem decomposes_zero (s : Spine) : Decomposes V True v 0 s (0, s) where
  extends_ := .refl s.memo
  fits_of _ _ _ := trivial
  sum _ _ := by simp

theorem decomposes_const {scale : BitVec 64} {s : Spine} (hwidth : widthOf v.ty = some 32)
    {imm width : Nat} (hconst : constOf k v = some (imm, width)) :
    Decomposes V True v scale s (BitVec.ofNat 64 (imm % 2 ^ 32) * scale, s) where
  extends_ := .refl _
  fits_of _ _ _ := trivial
  sum _ hlive := by
    obtain ⟨hbits, hw, himm⟩ := V.bits_const hconst hlive
    obtain rfl := Option.some.inj (hwidth.symm.trans hw)
    rw [hbits, Nat.mod_eq_of_lt himm]

theorem decomposes_opaque {scale : BitVec 64} (s : Spine) {memo : RangeMemo}
    (hextends : Extends V s.memo memo) (hwidth : widthOf v.ty = some 32) :
    Decomposes V True v scale s (0, Spine.push ⟨s.terms, memo⟩ v scale .zext32) where
  extends_ := hextends
  fits_of _ _ _ := trivial
  sum _ hlive := by
    rw [Spine.termSum_push, widen_zext32 (V.bits_lt hlive hwidth)]
    simp only [BitVec.ofNat_eq_ofNat, BitVec.add_zero]

/-- A sum is decomposed one summand after the other. -/
theorem Decomposes.sum_of_lt {fits fits' : Prop} {a b : Value} {scale : BitVec 64} {s : Spine}
    {memo : RangeMemo} {lhs rhs : BitVec 64 × Spine} (hextends : Extends V s.memo memo)
    (hlhs : Decomposes V fits a scale ⟨s.terms, memo⟩ lhs)
    (hrhs : Decomposes V fits' b scale lhs.2 rhs)
    (hv : V.live v →
      V.live a ∧ V.live b ∧ V.bits v = (V.bits a + V.bits b) % 2 ^ 32)
    (hlt : AndsNarrow V memo → MemoSound V s.memo → V.live v → V.bits a + V.bits b < 2 ^ 32) :
    Decomposes V (V.bits a + V.bits b < 2 ^ 32 ∧ fits ∧ fits') v scale s
      (lhs.1 + rhs.1, rhs.2) where
  extends_ := (hextends.trans hlhs.extends_).trans hrhs.extends_
  fits_of hnarrow hmemo hlive := by
    have hnarrow' := AndsNarrow.of_extends hnarrow hrhs.extends_
    have hnarrow'' := hnarrow'.of_extends hlhs.extends_
    have hmemo' := hextends.sound hnarrow'' hmemo
    obtain ⟨ha, hb, -⟩ := hv hlive
    exact ⟨hlt hnarrow'' hmemo hlive, hlhs.fits_of hnarrow' hmemo' ha,
      hrhs.fits_of hnarrow (hlhs.extends_.sound hnarrow' hmemo') hb⟩
  sum hfits hlive := by
    obtain ⟨hlt, hfits, hfits'⟩ := hfits
    obtain ⟨ha, hb, hbits⟩ := hv hlive
    rw [Nat.mod_eq_of_lt hlt] at hbits
    have hl := hlhs.sum hfits ha
    have hr := hrhs.sum hfits' hb
    calc termSum V.env rhs.2.terms + (lhs.1 + rhs.1)
        = termSum V.env rhs.2.terms + rhs.1 + lhs.1 := by ring
      _ = termSum V.env lhs.2.terms + lhs.1 + BitVec.ofNat 64 (V.bits b) * scale := by
          rw [hr]
          ring
      _ = termSum V.env s.terms + BitVec.ofNat 64 (V.bits v) * scale := by
          rw [hl, hbits, BitVec.ofNat_add]
          ring

theorem Decomposes.scaled_of_lt {fits : Prop} {other : Value} {factor : Nat} {scale : BitVec 64}
    {s : Spine} {memo : RangeMemo} {r : BitVec 64 × Spine} (hextends : Extends V s.memo memo)
    (hr : Decomposes V fits other (scale * BitVec.ofNat 64 factor) ⟨s.terms, memo⟩ r)
    (hv : V.live v → V.live other ∧ V.bits v = V.bits other * factor % 2 ^ 32)
    (hlt : AndsNarrow V memo → MemoSound V s.memo → V.live v → V.bits other * factor < 2 ^ 32) :
    Decomposes V (V.bits other * factor < 2 ^ 32 ∧ fits) v scale s r where
  extends_ := hextends.trans hr.extends_
  fits_of hnarrow hmemo hlive := by
    have hnarrow' := hnarrow.of_extends hr.extends_
    exact ⟨hlt hnarrow' hmemo hlive,
      hr.fits_of hnarrow (hextends.sound hnarrow' hmemo) (hv hlive).1⟩
  sum hfits hlive := by
    obtain ⟨hlt, hfits⟩ := hfits
    obtain ⟨hother, hbits⟩ := hv hlive
    rw [Nat.mod_eq_of_lt hlt] at hbits
    rw [hr.sum hfits hother, hbits, BitVec.ofNat_mul]
    ring

include hssa htyped in
theorem decomposeZext32_sound (depth : Nat) (v : Value) (scale : BitVec 64) (s : Spine)
    (hwidth : widthOf v.ty = some 32) :
    Decomposes V (decomposeFits k V.bits depth v scale s) v scale s
      (decomposeZext32 k depth v scale s) := by
  have hasks := rangeMaxOf_asks hssa htyped V
  induction depth generalizing v scale s with
  | zero =>
      unfold decomposeZext32 decomposeFits
      by_cases hscale : scale = 0
      · subst hscale
        rw [if_pos rfl, if_pos rfl]
        exact decomposes_zero s
      rw [if_neg hscale, if_neg hscale]
      cases hconst : constOf k v with
      | some c => exact decomposes_const hwidth hconst
      | none => exact decomposes_opaque s (.refl _) hwidth
  | succ depth ih =>
      unfold decomposeZext32 decomposeFits
      by_cases hscale : scale = 0
      · subst hscale
        rw [if_pos rfl, if_pos rfl]
        exact decomposes_zero s
      rw [if_neg hscale, if_neg hscale]
      cases hconst : constOf k v with
      | some c => exact decomposes_const hwidth hconst
      | none =>
          have hsplit := splitRule_sound (V := V) htyped hwidth
          cases hrule : splitRule k v with
          | opaqueTerm => exact decomposes_opaque s (.refl _) hwidth
          | sum a b =>
              rw [hrule] at hsplit
              obtain ⟨hwa, hwb, hbits⟩ := hsplit
              have hextends := (hasks.extends_ a s.memo).trans
                (hasks.extends_ b (rangeMaxOf k a s.memo).2)
              simp only
              cases hmaxA : (rangeMaxOf k a s.memo).1 with
              | none => exact decomposes_opaque s hextends hwidth
              | some maxA =>
                  cases hmaxB : (rangeMaxOf k b (rangeMaxOf k a s.memo).2).1 with
                  | none => exact decomposes_opaque s hextends hwidth
                  | some maxB =>
                      simp only
                      by_cases hle : maxA + maxB > U32_MAX
                      · rw [if_pos hle, if_pos hle]
                        exact decomposes_opaque s hextends hwidth
                      rw [if_neg hle, if_neg hle]
                      refine .sum_of_lt hextends (ih a scale _ hwa) (ih b scale _ hwb) hbits ?_
                      -- The bounds add up to less than `2 ^ 32`.
                      intro hnarrow hmemo hlive
                      obtain ⟨ha, hb, -⟩ := hbits hlive
                      have hnarrow' := hnarrow.of_extends
                        (hasks.extends_ b (rangeMaxOf k a s.memo).2)
                      have hlea := hasks.bounds a s.memo hnarrow' hmemo ha maxA hmaxA
                      have hleb := hasks.bounds b _ hnarrow
                        ((hasks.extends_ a s.memo).sound hnarrow' hmemo) hb maxB hmaxB
                      unfold U32_MAX at hle
                      omega
          | scaled other factor =>
              rw [hrule] at hsplit
              obtain ⟨hwother, hbits⟩ := hsplit
              have hextends := hasks.extends_ other s.memo
              simp only
              cases hmax : (rangeMaxOf k other s.memo).1 with
              | none => exact decomposes_opaque s hextends hwidth
              | some maxOther =>
                  simp only
                  by_cases hle : maxOther * factor > U32_MAX
                  · rw [if_pos hle, if_pos hle]
                    exact decomposes_opaque s hextends hwidth
                  rw [if_neg hle, if_neg hle]
                  refine .scaled_of_lt hextends (ih other _ _ hwother) hbits ?_
                  intro hnarrow hmemo hlive
                  have hleo := hasks.bounds other s.memo hnarrow hmemo (hbits hlive).1 maxOther hmax
                  have := Nat.mul_le_mul_right factor hleo
                  unfold U32_MAX at hle
                  omega

end Decompose

/-! ## Peeling 64 bits -/

theorem sextFrom_eq {imm width : Nat} (h : imm < 2 ^ width) :
    sextFrom imm width = sextBits width imm := by
  unfold sextFrom sextBits
  split
  · rename_i hw
    split
    · obtain rfl : width = 0 := by omega
      obtain rfl : imm = 0 := by omega
      rfl
    · rfl
  · rename_i hw
    rw [if_pos (by omega)]
    apply BitVec.eq_of_getLsbD_eq
    intro i hi
    simp only [BitVec.getLsbD_sshiftRight, BitVec.getLsbD_signExtend, BitVec.msb_eq_getLsbD_last,
      BitVec.getLsbD_shiftLeft, BitVec.getLsbD_ofNat]
    by_cases hlow : i < width
    · rw [if_pos (show 64 - width + i < 64 by omega), if_pos hlow,
        show 64 - width + i - (64 - width) = i by omega]
      have : ¬ 64 ≤ i ∧ 64 - width + i < 64 ∧ ¬ 64 - width + i < 64 - width := by omega
      simp only [this, hi, hlow, decide_true, decide_false, Bool.not_false, Bool.true_and]
    · rw [if_neg (show ¬ 64 - width + i < 64 by omega), if_neg hlow,
        show 64 - 1 - (64 - width) = width - 1 by omega]
      have : ¬ 64 ≤ i ∧ ¬ 63 < 64 - width ∧ width - 1 < 64 ∧ width - 1 < width := by omega
      simp only [this, hi, decide_true, decide_false, Bool.not_false, Bool.true_and,
        Nat.reduceSub, Nat.reduceLT]

theorem ofNat_mod_two_pow (n : Nat) : BitVec.ofNat 64 (n % 2 ^ 64) = BitVec.ofNat 64 n := by
  apply BitVec.eq_of_toNat_eq
  rw [BitVec.toNat_ofNat, BitVec.toNat_ofNat, Nat.mod_mod]

theorem ofNat_sub_eq {a b : Nat} (h : b < 2 ^ 64) :
    BitVec.ofNat 64 (a + (2 ^ 64 - b)) = BitVec.ofNat 64 a + -BitVec.ofNat 64 b := by
  have hsplit : BitVec.ofNat 64 (2 ^ 64 - b) + BitVec.ofNat 64 b = 0 := by
    rw [← BitVec.ofNat_add, Nat.sub_add_cancel (Nat.le_of_lt h)]
    rfl
  rw [BitVec.ofNat_add]
  calc BitVec.ofNat 64 a + BitVec.ofNat 64 (2 ^ 64 - b)
      = BitVec.ofNat 64 a + (BitVec.ofNat 64 (2 ^ 64 - b) + BitVec.ofNat 64 b) +
          -BitVec.ofNat 64 b := by ring
    _ = BitVec.ofNat 64 a + -BitVec.ofNat 64 b := by
        rw [hsplit]
        ring

section Peel

variable {k : Kernel} {thread : Thread} {V : View k thread} {v : Value}

/-- What a step of the spine says of a value of 64 bits. -/
def Peel.Sound (V : View k thread) (v : Value) : Peel → Prop
  | .stop => True
  | .plus rest addend => widthOf rest.ty = some 64 ∧ (V.live v → V.live rest ∧
      BitVec.ofNat 64 (V.bits v) = BitVec.ofNat 64 (V.bits rest) + addend)
  | .times rest factor => widthOf rest.ty = some 64 ∧ (V.live v → V.live rest ∧
      BitVec.ofNat 64 (V.bits v) = BitVec.ofNat 64 (V.bits rest) * factor)
  | .zext32 inner => widthOf inner.ty = some 32 ∧ (V.live v → V.live inner ∧
      V.bits v = V.bits inner)
  | .narrow inner => V.live v → V.live inner ∧ V.bits v = V.bits inner ∧
      V.bits inner < 2 ^ 32

theorem peelRule_sound (htyped : k.Typed) (hwidth : widthOf v.ty = some 64) :
    (peelRule k v).Sound V v := by
  have hwidths : ∀ {kind r a b}, definingOp k v = some (.bin kind r a b) →
      widthOf a.ty = some 64 ∧ widthOf b.ty = some 64 := by
    intro kind r a b hdef
    obtain ⟨width, hw, hwa, hwb⟩ := widths_bin htyped hdef
    obtain rfl := Option.some.inj (hwidth.symm.trans hw)
    exact ⟨hwa, hwb⟩
  have hbin : ∀ {kind r a b}, definingOp k v = some (.bin kind r a b) → V.live v →
      V.live a ∧ V.live b ∧ V.bits v = kind.eval 64 (V.bits a) (V.bits b) := by
    intro kind r a b hdef hlive
    obtain ⟨width, hw, ha, hb, hbits⟩ := V.bits_bin htyped hdef hlive
    obtain rfl := Option.some.inj (hwidth.symm.trans hw)
    exact ⟨ha, hb, hbits⟩
  have hconst : ∀ {c imm width}, constOf k c = some (imm, width) → widthOf c.ty = some 64 →
      V.live c → sextFrom imm width = BitVec.ofNat 64 (V.bits c) := by
    intro c imm width hc hwc hlivec
    obtain ⟨hbits, hw, -⟩ := V.bits_const hc hlivec
    obtain rfl := Option.some.inj (hwc.symm.trans hw)
    rw [hbits]
    rfl
  unfold peelRule
  split
  · rename_i r a b hdef
    obtain ⟨hwa, hwb⟩ := hwidths hdef
    split
    · rename_i hc
      refine ⟨hwa, fun hlive => ?_⟩
      obtain ⟨ha, hb, hbits⟩ := hbin hdef hlive
      refine ⟨ha, ?_⟩
      rw [hbits, hconst hc hwb hb, BinKind.eval, ofNat_mod_two_pow, BitVec.ofNat_add]
    · rename_i _ hc
      refine ⟨hwb, fun hlive => ?_⟩
      obtain ⟨ha, hb, hbits⟩ := hbin hdef hlive
      refine ⟨hb, ?_⟩
      rw [hbits, hconst hc hwa ha, BinKind.eval, ofNat_mod_two_pow, BitVec.ofNat_add,
        BitVec.add_comm]
    · exact trivial
  · rename_i r a b hdef
    obtain ⟨hwa, hwb⟩ := hwidths hdef
    split
    · rename_i hc
      refine ⟨hwa, fun hlive => ?_⟩
      obtain ⟨ha, hb, hbits⟩ := hbin hdef hlive
      refine ⟨ha, ?_⟩
      rw [hbits, hconst hc hwb hb, BinKind.eval, ofNat_mod_two_pow,
        ofNat_sub_eq (V.bits_lt hb hwb)]
    · exact trivial
  · rename_i r a b hdef
    obtain ⟨hwa, hwb⟩ := hwidths hdef
    split
    · rename_i hc
      refine ⟨hwa, fun hlive => ?_⟩
      obtain ⟨ha, hb, hbits⟩ := hbin hdef hlive
      refine ⟨ha, ?_⟩
      rw [hbits, hconst hc hwb hb, BinKind.eval, ofNat_mod_two_pow, BitVec.ofNat_mul]
    · rename_i _ hc
      refine ⟨hwb, fun hlive => ?_⟩
      obtain ⟨ha, hb, hbits⟩ := hbin hdef hlive
      refine ⟨hb, ?_⟩
      rw [hbits, hconst hc hwa ha, BinKind.eval, ofNat_mod_two_pow, BitVec.ofNat_mul,
        BitVec.mul_comm]
    · exact trivial
  · rename_i r a b hdef
    split
    · rename_i imm _ hc
      split
      · refine ⟨(hwidths hdef).1, fun hlive => ?_⟩
        obtain ⟨ha, hb, hbits⟩ := hbin hdef hlive
        refine ⟨ha, ?_⟩
        rw [hbits, (V.bits_const hc hb).1, BinKind.eval, ofNat_mod_two_pow, BitVec.ofNat_mul,
          ofNat_two_pow]
      · exact trivial
    · exact trivial
  · rename_i r inner hdef
    split
    · rename_i width hw
      split
      · exact trivial
      · rename_i hnarrow
        split
        · rename_i h32
          subst h32
          exact ⟨hw, V.bits_zext hdef⟩
        · intro hlive
          obtain ⟨hinner, hbits⟩ := V.bits_zext hdef hlive
          refine ⟨hinner, hbits, Nat.lt_of_lt_of_le (V.bits_lt hinner hw) ?_⟩
          exact Nat.pow_le_pow_right (by decide) (by omega)
    · exact trivial
  · exact trivial

/-- No operation that peeling an index splits below a zero-extension wraps. -/
def peelFits (k : Kernel) (bits : Value → Nat) : Nat → Value → BitVec 64 → Spine → Prop
  | 0, _, _, _ => True
  | fuel + 1, v, scale, s =>
      if scale = 0 then True
      else
        match constOf k v with
        | some _ => True
        | none =>
            match peelRule k v with
            | .plus rest _ => peelFits k bits fuel rest scale s
            | .times rest factor => peelFits k bits fuel rest (scale * factor) s
            | .zext32 inner => decomposeFits k bits PEEL_DEPTH inner scale s
            | _ => True

theorem decomposes_i64 (scale : BitVec 64) (s : Spine) :
    Decomposes V True v scale s (0, s.push v scale .i64) where
  extends_ := .refl _
  fits_of _ _ _ := trivial
  sum _ _ := by
    rw [Spine.termSum_push]
    simp only [BitVec.ofNat_eq_ofNat, BitVec.add_zero]
    rfl

theorem peel64_sound (hssa : k.region.Ssa) (htyped : k.Typed) (fuel : Nat) (v : Value)
    (scale : BitVec 64) (s : Spine) (hwidth : widthOf v.ty = some 64) :
    Decomposes V (peelFits k V.bits fuel v scale s) v scale s (peel64 k fuel v scale s) := by
  induction fuel generalizing v scale with
  | zero => exact decomposes_i64 scale s
  | succ fuel ih =>
      unfold peel64 peelFits
      by_cases hscale : scale = 0
      · subst hscale
        rw [if_pos rfl, if_pos rfl]
        exact decomposes_zero s
      rw [if_neg hscale, if_neg hscale]
      cases hconst : constOf k v with
      | some c =>
          obtain ⟨imm, width⟩ := c
          refine ⟨.refl _, fun _ _ _ => trivial, fun _ hlive => ?_⟩
          obtain ⟨hbits, hw, -⟩ := V.bits_const hconst hlive
          obtain rfl := Option.some.inj (hwidth.symm.trans hw)
          rw [hbits]
          rfl
      | none =>
          have hpeel := peelRule_sound (V := V) htyped hwidth
          cases hrule : peelRule k v with
          | stop => exact decomposes_i64 scale s
          | plus rest addend =>
              rw [hrule] at hpeel
              obtain ⟨hwrest, hbits⟩ := hpeel
              have htail := ih rest scale hwrest
              refine ⟨htail.extends_, fun hnarrow hmemo hlive =>
                htail.fits_of hnarrow hmemo (hbits hlive).1, fun hfits hlive => ?_⟩
              obtain ⟨hrest, hv⟩ := hbits hlive
              have hsum := htail.sum hfits hrest
              calc termSum V.env (peel64 k fuel rest scale s).2.terms +
                    (addend * scale + (peel64 k fuel rest scale s).1)
                  = termSum V.env (peel64 k fuel rest scale s).2.terms +
                      (peel64 k fuel rest scale s).1 + addend * scale := by ring
                _ = termSum V.env s.terms + BitVec.ofNat 64 (V.bits v) * scale := by
                    rw [hsum, hv]
                    ring
          | times rest factor =>
              rw [hrule] at hpeel
              obtain ⟨hwrest, hbits⟩ := hpeel
              have htail := ih rest (scale * factor) hwrest
              refine ⟨htail.extends_, fun hnarrow hmemo hlive =>
                htail.fits_of hnarrow hmemo (hbits hlive).1, fun hfits hlive => ?_⟩
              obtain ⟨hrest, hv⟩ := hbits hlive
              show termSum V.env (peel64 k fuel rest (scale * factor) s).2.terms +
                (peel64 k fuel rest (scale * factor) s).1 = _
              rw [htail.sum hfits hrest, hv]
              ring
          | zext32 inner =>
              rw [hrule] at hpeel
              obtain ⟨hwinner, hbits⟩ := hpeel
              have hinner := decomposeZext32_sound (V := V) hssa htyped PEEL_DEPTH inner scale s
                hwinner
              refine ⟨hinner.extends_, fun hnarrow hmemo hlive =>
                hinner.fits_of hnarrow hmemo (hbits hlive).1, fun hfits hlive => ?_⟩
              obtain ⟨hl, hv⟩ := hbits hlive
              rw [hv]
              exact hinner.sum hfits hl
          | narrow inner =>
              rw [hrule] at hpeel
              refine ⟨.refl _, fun _ _ _ => trivial, fun _ hlive => ?_⟩
              obtain ⟨-, hv, hlt⟩ := hpeel hlive
              show termSum V.env (s.push inner scale .zext32).terms + 0 = _
              rw [Spine.termSum_push, widen_zext32 hlt, hv]
              exact BitVec.add_zero _

end Peel

/-! ## One getelementptr -/

section Fold

variable {k : Kernel} {thread : Thread} {V : View k thread}

/-- The part of the address folded so far that is not the root. -/
def Folder.sum (env : Env) (s : Folder) : BitVec 64 := termSum env s.spine.terms + s.offset

/-- Where everything was folded, the folder gained what the indices amount
    to. -/
structure Folds (V : View k thread) (fits live : Prop) (amount : Option (BitVec 64)) (s : Folder)
    (r : Bool × Folder) : Prop where
  extends_ : Extends V s.spine.memo r.2.spine.memo
  fits_of : AndsNarrow V r.2.spine.memo → MemoSound V s.spine.memo → live → fits
  sum : fits → live → r.1 = true → ∀ offset, amount = some offset →
    r.2.sum V.env = s.sum V.env + offset

theorem folds_failed {fits live : Prop} {amount : Option (BitVec 64)} (s : Folder)
    (hfits : fits) : Folds V fits live amount s (false, s) :=
  ⟨.refl _, fun _ _ _ => hfits, fun _ _ h => by cases h⟩

theorem folds_offset {live : Prop} (s : Folder) {amount : BitVec 64} {addend : BitVec 64}
    (h : live → addend = amount) :
    Folds V True live (some amount) s (true, { s with offset := s.offset + addend }) where
  extends_ := .refl _
  fits_of _ _ _ := trivial
  sum _ hlive _ offset hoffset := by
    obtain rfl := Option.some.inj hoffset
    rw [Folder.sum, Folder.sum, h hlive, BitVec.add_assoc]

theorem Folds.andThen {fits fits' live live' : Prop} {amount amount' : Option (BitVec 64)}
    {s : Folder} {r : Bool × Folder} {f : Folder → Bool × Folder}
    (h : Folds V fits live amount s r) (hf : Folds V fits' live' amount' r.2 (f r.2)) :
    Folds V (fits ∧ (r.1 = true → fits')) (live ∧ live')
      (amount.bind fun a => amount'.map fun b => a + b) s (Nvptx.andThen r f) := by
  unfold Nvptx.andThen
  split
  · rename_i hdone
    refine ⟨h.extends_.trans hf.extends_, fun hnarrow hmemo hlive => ?_,
      fun hfits hlive hdone' offset hoffset => ?_⟩
    · have hnarrow' := hnarrow.of_extends hf.extends_
      exact ⟨h.fits_of hnarrow' hmemo hlive.1,
        fun _ => hf.fits_of hnarrow (h.extends_.sound hnarrow' hmemo) hlive.2⟩
    · obtain ⟨a, rfl, hb⟩ := Option.bind_eq_some_iff.mp hoffset
      obtain ⟨b, rfl, rfl⟩ := Option.map_eq_some_iff.mp hb
      have hfirst := h.sum hfits.1 hlive.1 hdone a rfl
      have hrest := hf.sum (hfits.2 hdone) hlive.2 hdone' b rfl
      rw [hrest, hfirst, BitVec.add_assoc]
  · rename_i hdone
    exact ⟨h.extends_, fun hnarrow hmemo hlive =>
      ⟨h.fits_of hnarrow hmemo hlive.1, fun hdone' => absurd hdone' hdone⟩,
      fun _ _ hdone' => absurd hdone' hdone⟩

theorem Folds.weaken {fits live live' : Prop} {amount amount' : Option (BitVec 64)} {s : Folder}
    {r : Bool × Folder} (h : Folds V fits live amount s r) (hlive : live' → live)
    (hamount : live' → amount' = amount) : Folds V fits live' amount' s r :=
  ⟨h.extends_, fun hnarrow hmemo hl => h.fits_of hnarrow hmemo (hlive hl),
    fun hfits hl hdone offset hoffset =>
      h.sum hfits (hlive hl) hdone offset ((hamount hl).symm.trans hoffset)⟩

/-- No operation that folding an index splits below a zero-extension wraps. -/
def strideFits (k : Kernel) (bits : Value → Nat) (stride : Nat) (index : GepIndex) (s : Folder) :
    Prop :=
  match index with
  | .constant _ => True
  | .value v =>
      match widthOf v.ty, constOf k v with
      | some width, none =>
          if width = 64 then peelFits k bits PEEL_DEPTH v (BitVec.ofNat 64 stride) s.spine
          else True
      | _, _ => True

def descendFits (k : Kernel) (bits : Value → Nat) : Ty → List GepIndex → Folder → Prop
  | _, [], _ => True
  | .array elem _, index :: rest, s =>
      match strideOf elem with
      | some stride => strideFits k bits stride index s ∧
          ((foldStride k stride index s).1 = true →
            descendFits k bits elem rest (foldStride k stride index s).2)
      | none => True
  | .struct fields, index :: rest, s =>
      match (fieldOf k index).bind fun field => structFieldOffset fields field 0 with
      | some (start, ty) =>
          descendFits k bits ty rest { s with offset := s.offset + BitVec.ofNat 64 start }
      | none => True
  | _, _ :: _, _ => True

def indicesFit (k : Kernel) (bits : Value → Nat) (srcElemTy : Ty) : List GepIndex → Folder → Prop
  | [], _ => True
  | index :: rest, s =>
      match strideOf srcElemTy with
      | some stride => strideFits k bits stride index s ∧
          ((foldStride k stride index s).1 = true →
            descendFits k bits srcElemTy rest (foldStride k stride index s).2)
      | none => True

variable (hssa : k.region.Ssa) (htyped : k.Typed)

include hssa htyped in
theorem foldStride_sound (stride : Nat) (index : GepIndex) (s : Folder) :
    Folds V (strideFits k V.env.bits stride index s) (∀ w ∈ index.operands, V.live w)
      (some (indexBits V.env.bits index * BitVec.ofNat 64 stride)) s
      (foldStride k stride index s) := by
  cases index with
  | constant c => exact folds_offset s fun _ => rfl
  | value v =>
      simp only [foldStride, strideFits]
      cases hwidth : widthOf v.ty with
      | none => exact folds_failed s trivial
      | some width =>
          cases hconst : constOf k v with
          | some c =>
              apply folds_offset s
              intro hlive
              obtain ⟨hbits, hw, hlt⟩ := V.bits_const hconst (hlive v List.mem_cons_self)
              rw [sextFrom_eq hlt, indexBits, hw, ← hbits]
              rfl
          | none =>
              simp only
              by_cases h64 : width = 64
              · subst h64
                rw [if_pos rfl, if_pos rfl]
                have hpeel := peel64_sound (V := V) hssa htyped PEEL_DEPTH v
                  (BitVec.ofNat 64 stride) s.spine hwidth
                refine ⟨hpeel.extends_, fun hnarrow hmemo hlive =>
                  hpeel.fits_of hnarrow hmemo (hlive v List.mem_cons_self),
                  fun hfits hlive _ offset hoffset => ?_⟩
                obtain rfl := Option.some.inj hoffset
                have hsum := hpeel.sum hfits (hlive v List.mem_cons_self)
                have hindex : indexBits V.env.bits (.value v) = BitVec.ofNat 64 (V.bits v) := by
                  rw [indexBits, hwidth]
                  rfl
                rw [hindex, Folder.sum, Folder.sum]
                calc termSum V.env (peel64 k PEEL_DEPTH v (BitVec.ofNat 64 stride) s.spine).2.terms +
                      (s.offset + (peel64 k PEEL_DEPTH v (BitVec.ofNat 64 stride) s.spine).1)
                    = termSum V.env (peel64 k PEEL_DEPTH v (BitVec.ofNat 64 stride)
                          s.spine).2.terms +
                        (peel64 k PEEL_DEPTH v (BitVec.ofNat 64 stride) s.spine).1 +
                        s.offset := by ring
                  _ = _ := by
                      rw [hsum]
                      ring
              · rw [if_neg h64, if_neg h64]
                split
                · refine ⟨.refl _, fun _ _ _ => trivial, fun _ _ _ offset hoffset => ?_⟩
                  obtain rfl := Option.some.inj hoffset
                  simp only [Folder.sum, Spine.termSum_push]
                  have hindex : indexBits V.env.bits (.value v) =
                      Term.widen V.env ⟨v, BitVec.ofNat 64 stride, .sext width⟩ := by
                    rw [indexBits, hwidth]
                    rfl
                  rw [hindex]
                  ring
                · exact folds_failed s trivial

/-- A constant field index is the field's. -/
theorem fieldOf_eq {index : GepIndex} (hlive : ∀ w ∈ index.operands, V.live w) {field : Nat}
    (h : fieldOf k index = some field) : fieldIndex V.env.bits index = field := by
  cases index with
  | constant c => exact Option.some.inj h
  | value v =>
      obtain ⟨c, hc, rfl⟩ := Option.map_eq_some_iff.mp h
      exact (V.bits_const hc (hlive v List.mem_cons_self)).1

include hssa htyped in
theorem foldDescend_sound (indices : List GepIndex) (ty : Ty) (s : Folder) :
    Folds V (descendFits k V.env.bits ty indices s)
      (∀ w ∈ indices.flatMap GepIndex.operands, V.live w)
      (gepDescend V.env.bits ty indices) s (foldDescend k ty indices s) := by
  induction indices generalizing ty s with
  | nil =>
      have hnil : foldDescend k ty [] s = (true, { s with offset := s.offset + 0 }) := by
        cases ty <;> simp only [foldDescend, BitVec.add_zero, BitVec.ofNat_eq_ofNat]
      have hzero : gepDescend V.env.bits ty [] = some 0 := by
        cases ty <;> rfl
      have hfits : descendFits k V.env.bits ty [] s = True := by
        cases ty <;> rfl
      rw [hnil, hzero, hfits]
      exact folds_offset s fun _ => rfl
  | cons index rest ih =>
      have hsplit : (∀ w ∈ (index :: rest).flatMap GepIndex.operands, V.live w) →
          (∀ w ∈ index.operands, V.live w) ∧ ∀ w ∈ rest.flatMap GepIndex.operands, V.live w := by
        intro h
        rw [List.flatMap_cons] at h
        exact ⟨fun w hw => h w (List.mem_append_left _ hw),
          fun w hw => h w (List.mem_append_right _ hw)⟩
      cases ty
      case array elem size =>
        simp only [foldDescend, gepDescend, descendFits]
        cases hstride : strideOf elem with
        | none => exact folds_failed s trivial
        | some stride =>
            have hfirst := foldStride_sound (V := V) hssa htyped stride index s
            exact (hfirst.andThen (ih elem _)).weaken hsplit fun _ => rfl
      case struct fields =>
        simp only [foldDescend, gepDescend, descendFits]
        cases hfield : (fieldOf k index).bind fun field => structFieldOffset fields field 0 with
        | none => exact folds_failed s trivial
        | some found =>
            obtain ⟨field, hindex, hoffset⟩ := Option.bind_eq_some_iff.mp hfield
            have hrest := ih found.2 { s with offset := s.offset + BitVec.ofNat 64 found.1 }
            refine ⟨hrest.extends_, fun hnarrow hmemo hlive =>
              hrest.fits_of hnarrow hmemo (hsplit hlive).2,
              fun hfits hlive hdone offset hamount => ?_⟩
            rw [fieldOf_eq (hsplit hlive).1 hindex, hoffset, Option.bind_some,
              Option.map_eq_some_iff] at hamount
            obtain ⟨o, ho, rfl⟩ := hamount
            rw [hrest.sum hfits (hsplit hlive).2 hdone o ho, Folder.sum, Folder.sum]
            ring
      all_goals exact folds_failed s trivial

include hssa htyped in
theorem foldIndices_sound (indices : List GepIndex) (ty : Ty) (s : Folder) :
    Folds V (indicesFit k V.env.bits ty indices s)
      (∀ w ∈ indices.flatMap GepIndex.operands, V.live w)
      (gepOffset V.env.bits ty indices) s (foldIndices k ty indices s) := by
  cases indices with
  | nil =>
      have hnil : foldIndices k ty [] s = (true, { s with offset := s.offset + 0 }) := by
        simp only [foldIndices, BitVec.add_zero, BitVec.ofNat_eq_ofNat]
      rw [hnil]
      exact folds_offset s fun _ => rfl
  | cons index rest =>
      simp only [foldIndices, gepOffset, indicesFit]
      cases hstride : strideOf ty with
      | none => exact folds_failed s trivial
      | some stride =>
          have hfirst := foldStride_sound (V := V) hssa htyped stride index s
          refine (hfirst.andThen (foldDescend_sound hssa htyped rest ty _)).weaken ?_ fun _ => rfl
          intro h
          rw [List.flatMap_cons] at h
          exact ⟨fun w hw => h w (List.mem_append_left _ hw),
            fun w hw => h w (List.mem_append_right _ hw)⟩

end Fold

/-! ## The plan -/

section Plan

variable {k : Kernel} {thread : Thread} {V : View k thread} {v : Value}

/-- A register-aliasing cast is its operand. -/
theorem aliasOf_sound {operand : Value} (h : aliasOf k v = some operand) (hlive : V.live v) :
    V.live operand ∧ V.bits v = V.bits operand := by
  have hcast : ∀ {kind r}, definingOp k v = some (.cast kind r operand) →
      V.live operand ∧ V.bits v = V.bits operand := by
    intro kind r hdef
    obtain ⟨val, -, hbits, hyields⟩ := V.yields_bits hdef hlive
    have hyields : V.env operand = some val := hyields
    refine ⟨V.live_operand hdef hlive List.mem_cons_self, ?_⟩
    rw [hbits, View.bits, Env.bits, hyields]
    rfl
  unfold aliasOf at h
  split at h
  case h_4 => cases h
  all_goals
    rename_i hdef
    obtain rfl := Option.some.inj h
    exact hcast hdef

theorem unwrapAliases_sound (spaces : Value → Option PtrSpace) (fuel : Nat) (hlive : V.live v) :
    V.bits (unwrapAliases k spaces fuel v) = V.bits v := by
  induction fuel generalizing v with
  | zero => rfl
  | succ fuel ih =>
      unfold unwrapAliases
      split
      · rename_i operand halias
        split
        · obtain ⟨hoperand, hbits⟩ := aliasOf_sound halias hlive
          rw [ih hoperand, hbits]
        · rfl
      · rfl

/-- The plans of live values are their addresses. -/
def PlansSound (V : View k thread) (plans : Value → Option FoldedAddr) : Prop :=
  ∀ v addr, plans v = some addr → V.live v → addr.value V.env = BitVec.ofNat 64 (V.bits v)

theorem baseAddr_sound (spaces : Value → Option PtrSpace) {plans : Value → Option FoldedAddr}
    (hplans : PlansSound V plans) (hlive : V.live v) :
    (baseAddr k spaces plans v).value V.env = BitVec.ofNat 64 (V.bits v) := by
  unfold baseAddr
  cases hplan : plans v with
  | some addr => exact hplans v addr hplan hlive
  | none =>
      show BitVec.ofNat 64 (V.bits (unwrapAliases k spaces k.insts.length v)) + 0 + 0 = _
      rw [unwrapAliases_sound spaces _ hlive]
      ring

variable (hssa : k.region.Ssa) (htyped : k.Typed)

/-- What the folder keeps as it goes over the operations of a body. -/
structure Plans (V : View k thread) (p p' : AddrPlans) : Prop where
  extends_ : Extends V p.memo p'.memo
  sound : AndsNarrow V p'.memo → MemoSound V p.memo → PlansSound V p.plans →
    PlansSound V p'.plans

theorem Plans.trans {p p' p'' : AddrPlans} (h : Plans V p p') (h' : Plans V p' p'') :
    Plans V p p'' where
  extends_ := h.extends_.trans h'.extends_
  sound hnarrow hmemo hplans := by
    have hnarrow' := hnarrow.of_extends h'.extends_
    exact h'.sound hnarrow (h.extends_.sound hnarrow' hmemo) (h.sound hnarrow' hmemo hplans)

include hssa htyped in
/-- A folded `getelementptr` is the address it computes. -/
theorem foldGep_sound (spaces : Value → Option PtrSpace) (p : AddrPlans) {result base : Value}
    {ty : Ty} {indices : List GepIndex} (hinst : .gep result base ty indices ∈ k.insts) :
    Extends V p.memo (foldGep k spaces p result base ty indices).2 ∧
      (AndsNarrow V (foldGep k spaces p result base ty indices).2 → MemoSound V p.memo →
        PlansSound V p.plans → V.live result →
        ∀ addr, (foldGep k spaces p result base ty indices).1 = some addr →
          addr.value V.env = BitVec.ofNat 64 (V.bits result)) := by
  have hfolds := foldIndices_sound (V := V) hssa htyped indices ty
    ⟨⟨(baseAddr k spaces p.plans base).terms, p.memo⟩, (baseAddr k spaces p.plans base).offset⟩
  refine ⟨hfolds.extends_, fun hnarrow hmemo hplans hlive addr haddr => ?_⟩
  simp only [foldGep] at haddr hnarrow
  split at haddr
  · rename_i haccepted
    obtain rfl := Option.some.inj haddr
    have hoperands := V.closed _ hinst result List.mem_cons_self hlive
    obtain ⟨val, hval, -⟩ := V.fits result hlive
    obtain ⟨b, offset, hb, hoffset, -, hbits⟩ :=
      V.yields _ hinst result List.mem_cons_self hlive val hval
    have hindices : ∀ w ∈ indices.flatMap GepIndex.operands, V.live w := fun w hw =>
      hoperands w (List.mem_cons_of_mem _ hw)
    have hsum := hfolds.sum (hfolds.fits_of hnarrow hmemo hindices) hindices haccepted.1 offset
      hoffset
    have hbase := baseAddr_sound spaces hplans (hoperands base List.mem_cons_self)
    have hresult : V.bits result = val.bits := by
      rw [View.bits, Env.bits, hval]
      rfl
    have hbaseBits : V.bits base = b.bits := by
      rw [View.bits, Env.bits, hb]
      rfl
    rw [hresult, hbits, ← hbaseBits, ← hbase]
    simp only [Folder.sum, FoldedAddr.value, termSum_mergeTerms] at hsum ⊢
    rw [BitVec.add_assoc, hsum]
    ring
  · cases haddr

include hssa htyped in
theorem planInst_sound (spaces : Value → Option PtrSpace) (p : AddrPlans) {inst : Inst}
    (hinst : inst ∈ k.insts) : Plans V p (planInst k spaces p inst) := by
  cases inst
  case gep result base ty indices =>
    obtain ⟨hextends, hsound⟩ := foldGep_sound (V := V) hssa htyped spaces p hinst
    refine ⟨hextends, fun hnarrow hmemo hplans v addr haddr hlive => ?_⟩
    have hgep := hsound hnarrow hmemo hplans
    simp only [planInst] at haddr
    cases hplan : (foldGep k spaces p result base ty indices).1 with
    | none =>
        rw [hplan] at haddr
        exact hplans v addr haddr hlive
    | some plan =>
        simp only [hplan] at haddr
        by_cases hv : v = result
        · subst hv
          rw [Function.update_self] at haddr
          obtain rfl := Option.some.inj haddr
          exact hgep hlive _ hplan
        · rw [Function.update_of_ne hv] at haddr
          exact hplans v addr haddr hlive
  all_goals exact ⟨.refl _, fun _ _ hplans => hplans⟩

include hssa htyped in
theorem planAddresses_sound (V : View k thread) (spaces : Value → Option PtrSpace) :
    Plans V ⟨fun _ => none, fun _ => none⟩ (planAddresses k spaces) := by
  have hfold : ∀ (insts : List Inst), (∀ inst ∈ insts, inst ∈ k.insts) → ∀ p,
      Plans V p (insts.foldl (planInst k spaces) p) := by
    intro insts
    induction insts with
    | nil => exact fun _ p => ⟨.refl _, fun _ _ hplans => hplans⟩
    | cons inst insts ih =>
        intro hmem p
        exact (planInst_sound hssa htyped spaces p (hmem inst List.mem_cons_self)).trans
          (ih (fun i hi => hmem i (List.mem_cons_of_mem _ hi)) _)
  exact hfold k.insts (fun _ h => h) _

end Plan

/-! ## Exactness -/

/-- Every bound is above its value in the state, and every plan is the address
    of its value. -/
structure AddrPlans.Exact (k : Kernel) (p : AddrPlans) (s : State) : Prop where
  bounds : ∀ v bound, p.memo v = some (some bound) → Live k s v → s.env.bits v ≤ bound
  plans : ∀ v addr, p.plans v = some addr → Live k s v →
    addr.value s.env = BitVec.ofNat 64 (s.env.bits v)

/-- **Address folding.** In a state a thread gets to, the bounds and the folded
    addresses are right if and only if no `and` with a constant right operand
    that a bound was asked of has a result wider than 32 bits. -/
theorem planAddresses_exact {k : Kernel} (hssa : k.region.Ssa) (hdom : k.region.UsesDominated)
    (htyped : k.Typed) (spaces : Value → Option PtrSpace) {thread : Thread} {s : State}
    (hs : Reachable k thread s) :
    (planAddresses k spaces).Exact k s ↔
      ∀ v, ConstAnd k v → (planAddresses k spaces).memo v ≠ none → Live k s v →
        s.env.bits v < 2 ^ 32 := by
  have hplans := planAddresses_sound hssa htyped (hs.view htyped hssa hdom) spaces
  constructor
  · intro hexact v hand hasked hlive
    -- Such an `and` has a bound below `2 ^ 32`.
    by_contra hwide
    have hunbounded : Unbounded (planAddresses k spaces).memo v := by
      refine ⟨hasked, fun x hx => ?_⟩
      have hle := hexact.bounds v x hx hlive
      omega
    exact (hplans.extends_.bounded v hand hunbounded).1 rfl
  · intro h
    have hnarrow : AndsNarrow (hs.view htyped hssa hdom) (planAddresses k spaces).memo :=
      fun v hasked hlive a c imm width hinst hconst =>
        h v ⟨a, c, imm, width, hinst, hconst⟩ hasked hlive
    have hmemo : MemoSound (hs.view htyped hssa hdom) fun _ => none := fun _ _ h => by cases h
    refine ⟨fun v bound hbound hlive => ?_, fun v addr haddr hlive => ?_⟩
    · exact hplans.extends_.sound hnarrow hmemo v _ hbound hlive bound rfl
    · exact hplans.sound hnarrow hmemo (fun _ _ h => by cases h) v addr haddr hlive

/-! ## A wide mask -/

/-- A kernel that masks its parameter with a constant of 64 bits, of which the
    low 32 are clear, and indexes with what it computes from the rest. -/
def wideMaskKernel : Kernel where
  blocks := [
    ⟨[⟨0, .i 64⟩, ⟨1, .pointer⟩], [
      .constant ⟨2, .i 64⟩ 0xFFFFFFFF00000000,
      .bin .and ⟨3, .i 64⟩ ⟨0, .i 64⟩ ⟨2, .i 64⟩,
      .constant ⟨4, .i 64⟩ 4,
      .bin .lshr ⟨5, .i 64⟩ ⟨3, .i 64⟩ ⟨4, .i 64⟩,
      .trunc ⟨6, .i 32⟩ ⟨5, .i 64⟩,
      .constant ⟨7, .i 32⟩ 0x10000000,
      .bin .add ⟨8, .i 32⟩ ⟨6, .i 32⟩ ⟨7, .i 32⟩,
      .zext ⟨9, .i 64⟩ ⟨8, .i 32⟩,
      .gep ⟨10, .pointer⟩ ⟨1, .pointer⟩ (.i 8) [.value ⟨9, .i 64⟩],
      .other [] []]⟩]
  globals _ := none
  paramsGlobal := true

/-- The parameters: a number, and a buffer at 4096. -/
def wideMaskEntry (x : Nat) : Env := fun v =>
  if v = ⟨0, .i 64⟩ then some ⟨x, none⟩
  else if v = ⟨1, .pointer⟩ then some ⟨4096, some (.param ⟨1, .pointer⟩)⟩
  else none

/-- The index the kernel computes. -/
def wideMaskIndex (x : Nat) : Nat :=
  ((x &&& 0xFFFFFFFF00000000) / 2 ^ 4 % 2 ^ 32 + 0x10000000) % 2 ^ 32

/-- The values at the end of the kernel. -/
def wideMaskEnv (x : Nat) : Env :=
  [((⟨2, .i 64⟩ : Value), 0xFFFFFFFF00000000), (⟨3, .i 64⟩, x &&& 0xFFFFFFFF00000000),
    (⟨4, .i 64⟩, 4), (⟨5, .i 64⟩, (x &&& 0xFFFFFFFF00000000) / 2 ^ 4),
    (⟨6, .i 32⟩, (x &&& 0xFFFFFFFF00000000) / 2 ^ 4 % 2 ^ 32), (⟨7, .i 32⟩, 0x10000000),
    (⟨8, .i 32⟩, wideMaskIndex x), (⟨9, .i 64⟩, wideMaskIndex x)].foldl
      (fun env p => Function.update env p.1 (some ⟨p.2, none⟩)) (wideMaskEntry x)

/-- An index over bytes. -/
theorem gepOffset_bytes (bits : Value → Nat) {v : Value} (h : widthOf v.ty = some 64) :
    gepOffset bits (.i 8) [.value v] = some (BitVec.ofNat 64 (bits v)) := by
  have hstride : strideOf (.i 8) = some 1 := by decide
  simp only [gepOffset, hstride, gepDescend, indexBits, h, sextBits, Option.bind_some,
    Option.map_some, Option.getD_some, Nat.lt_irrefl, if_false, BitVec.mul_one,
    BitVec.ofNat_eq_ofNat, BitVec.add_zero]

/-- The state at the end of the kernel. -/
def wideMaskState (x : Nat) : State :=
  ⟨0, [.other [] []], Function.update (wideMaskEnv x) ⟨10, .pointer⟩
    (some ⟨4096 + wideMaskIndex x, some (.param ⟨1, .pointer⟩)⟩)⟩

theorem reachable_wideMask (thread : Thread) {x : Nat} (hx : x < 2 ^ 64) :
    Reachable wideMaskKernel thread (wideMaskState x) := by
  have hentry : Reachable wideMaskKernel thread
      ⟨0, wideMaskKernel.entry.insts, wideMaskEntry x⟩ := by
    refine .entry ⟨rfl, rfl, fun p hp => ?_, fun v hv => ?_⟩
    · rcases List.mem_cons.mp hp with rfl | hp
      · refine ⟨⟨x, none⟩, rfl, fun width hwidth => ?_, fun _ hptr => by cases hptr⟩
        obtain rfl := Option.some.inj hwidth
        exact hx
      · obtain rfl := List.mem_singleton.mp hp
        refine ⟨⟨4096, some (.param ⟨1, .pointer⟩)⟩, rfl, fun width hwidth => ?_, fun _ _ => rfl⟩
        obtain rfl := Option.some.inj hwidth
        decide
    · show wideMaskEntry x v = none
      have hne : v ≠ ⟨0, .i 64⟩ ∧ v ≠ ⟨1, .pointer⟩ :=
        ⟨fun h => hv (h ▸ List.mem_cons_self),
          fun h => hv (h ▸ List.mem_cons_of_mem _ List.mem_cons_self)⟩
      rw [wideMaskEntry, if_neg hne.1, if_neg hne.2]
  -- One step of an integer operation.
  have hnext : ∀ {inst rest env} (r : Value) (n width : Nat),
      Reachable wideMaskKernel thread ⟨0, inst :: rest, env⟩ → inst.results = [r] →
      (∀ v ∈ inst.operands, (env v).isSome) → widthOf r.ty = some width → n < 2 ^ width →
      Yields thread env inst r ⟨n, none⟩ →
      Reachable wideMaskKernel thread ⟨0, rest, Function.update env r (some ⟨n, none⟩)⟩ := by
    intro inst rest env r n width h hresults hoperands hwidth hn hyields
    refine h.next_result hresults hoperands (fun w hw => ?_) hyields
    obtain rfl := Option.some.inj (hwidth.symm.trans hw)
    exact hn
  have hsome : ∀ {env : Env} {v : Value} {val : Val}, env v = some val →
      (env v).isSome ∧ env.bits v = val.bits := by
    intro env v val h
    rw [Env.bits, h]
    exact ⟨rfl, rfl⟩
  have hconst : ∀ {rest env} (r : Value) (n width : Nat),
      Reachable wideMaskKernel thread ⟨0, .constant r n :: rest, env⟩ →
      widthOf r.ty = some width → n < 2 ^ width →
      Reachable wideMaskKernel thread ⟨0, rest, Function.update env r (some ⟨n, none⟩)⟩ := by
    intro rest env r n width h hwidth hn
    refine hnext r n width h rfl (fun _ hv => absurd hv List.not_mem_nil) hwidth hn fun w hw => ?_
    obtain rfl := Option.some.inj (hwidth.symm.trans hw)
    exact (Nat.mod_eq_of_lt hn).symm
  have hbin : ∀ {kind rest env r a b} {m n : Nat} (p width : Nat),
      Reachable wideMaskKernel thread ⟨0, .bin kind r a b :: rest, env⟩ →
      env a = some ⟨m, none⟩ → env b = some ⟨n, none⟩ → widthOf r.ty = some width →
      p = kind.eval width m n → p < 2 ^ width →
      Reachable wideMaskKernel thread ⟨0, rest, Function.update env r (some ⟨p, none⟩)⟩ := by
    intro kind rest env r a b m n p width h ha hb hwidth hp hlt
    refine hnext r p width h rfl (fun v hv => ?_) hwidth hlt fun w hw => ?_
    · rcases List.mem_cons.mp hv with rfl | hv
      · exact (hsome ha).1
      · exact List.mem_singleton.mp hv ▸ (hsome hb).1
    · obtain rfl := Option.some.inj (hwidth.symm.trans hw)
      rw [(hsome ha).2, (hsome hb).2]
      exact hp
  have hgep : ∀ {rest env} {n : Nat},
      Reachable wideMaskKernel thread ⟨0, .gep ⟨10, .pointer⟩ ⟨1, .pointer⟩ (.i 8)
        [.value ⟨9, .i 64⟩] :: rest, env⟩ →
      env ⟨1, .pointer⟩ = some ⟨4096, some (.param ⟨1, .pointer⟩)⟩ →
      env ⟨9, .i 64⟩ = some ⟨n, none⟩ → n < 2 ^ 32 →
      Reachable wideMaskKernel thread ⟨0, rest, Function.update env ⟨10, .pointer⟩
        (some ⟨4096 + n, some (.param ⟨1, .pointer⟩)⟩)⟩ := by
    intro rest env n h hbase hindex hn
    refine h.next_result rfl (fun v hv => ?_) (fun width hwidth => ?_)
      ⟨_, _, hbase, gepOffset_bytes _ rfl, rfl, ?_⟩
    · rcases List.mem_cons.mp hv with rfl | hv
      · exact (hsome hbase).1
      · exact List.mem_singleton.mp hv ▸ (hsome hindex).1
    · obtain rfl := Option.some.inj hwidth
      show 4096 + n < 2 ^ 64
      omega
    · rw [(hsome hindex).2]
      exact BitVec.ofNat_add 4096 n
  have hinner : ∀ n, n % 2 ^ 32 < 2 ^ 32 := fun n => Nat.mod_lt _ (by decide)
  have hand : x &&& 0xFFFFFFFF00000000 < 2 ^ 64 := Nat.lt_of_le_of_lt Nat.and_le_left hx
  have hshift : (x &&& 0xFFFFFFFF00000000) / 2 ^ 4 < 2 ^ 64 :=
    Nat.lt_of_le_of_lt (Nat.div_le_self _ _) hand
  have hone : ∀ {env : Env} {a : Value}, (env a).isSome → ∀ v ∈ [a], (env v).isSome := by
    intro env a ha v hv
    exact List.mem_singleton.mp hv ▸ ha
  have hmask := hconst ⟨2, .i 64⟩ _ 64 hentry rfl (by decide)
  have hmasked := hbin (x &&& 0xFFFFFFFF00000000) 64 hmask rfl rfl rfl rfl hand
  have hcount := hconst ⟨4, .i 64⟩ 4 64 hmasked rfl (by decide)
  have hshifted := hbin ((x &&& 0xFFFFFFFF00000000) / 2 ^ 4) 64 hcount rfl rfl rfl rfl hshift
  have htrunc := hnext ⟨6, .i 32⟩ ((x &&& 0xFFFFFFFF00000000) / 2 ^ 4 % 2 ^ 32) 32 hshifted rfl
    (hone rfl) rfl (hinner _) fun w hw => by
      obtain rfl := Option.some.inj hw
      rfl
  have haddend := hconst ⟨7, .i 32⟩ 0x10000000 32 htrunc rfl (by decide)
  have hsum := hbin (wideMaskIndex x) 32 haddend rfl rfl rfl
    (by simp only [wideMaskIndex, BinKind.eval]) (hinner _)
  have hindex := hnext ⟨9, .i 64⟩ (wideMaskIndex x) 64 hsum rfl
    (hone rfl) rfl (Nat.lt_trans (hinner _) (by decide)) (hsome rfl).2.symm
  exact hgep hindex rfl rfl (hinner _)

theorem wideMask_wellFormed : wideMaskKernel.region.Ssa ∧ wideMaskKernel.region.UsesDominated ∧
    wideMaskKernel.Typed :=
  ⟨by decide, Llvm.Region.usesDominated_of_local (by decide), by decide⟩

/-- A mask that leaves nothing of the parameter has 32 bits, and the plan is
    exact. -/
theorem planAddresses_exact_wideMask :
    (planAddresses wideMaskKernel fun _ => none).Exact wideMaskKernel (wideMaskState 5) := by
  obtain ⟨hssa, hdom, htyped⟩ := wideMask_wellFormed
  apply (planAddresses_exact hssa hdom htyped (fun _ => none)
    (reachable_wideMask soleThread (x := 5) (by decide))).mpr
  rintro v ⟨a, c, imm, width, hinst, -⟩ - -
  obtain ⟨rfl, -, -⟩ : v = ⟨3, .i 64⟩ ∧ a = ⟨0, .i 64⟩ ∧ c = ⟨2, .i 64⟩ := by
    simpa [wideMaskKernel, Kernel.insts] using hinst
  show (5 : Nat) &&& 0xFFFFFFFF00000000 < 2 ^ 32
  decide

/-- The mask is held to be at most 0.  Where it is not, the sum that is split
    wraps, and the plan is off by `2 ^ 32`. -/
theorem planAddresses_wide_mask :
    (wideMaskKernel.region.Ssa ∧ wideMaskKernel.region.UsesDominated ∧ wideMaskKernel.Typed) ∧
    Reachable wideMaskKernel soleThread (wideMaskState 0xF00000000) ∧
    (planAddresses wideMaskKernel fun _ => none).memo ⟨3, .i 64⟩ = some (some 0) ∧
    (wideMaskState 0xF00000000).env.bits ⟨3, .i 64⟩ = 0xF00000000 ∧
    ∃ addr, (planAddresses wideMaskKernel fun _ => none).plans ⟨10, .pointer⟩ = some addr ∧
      Live wideMaskKernel (wideMaskState 0xF00000000) ⟨10, .pointer⟩ ∧
      (wideMaskState 0xF00000000).env.bits ⟨10, .pointer⟩ = 4096 ∧
      addr.value (wideMaskState 0xF00000000).env = BitVec.ofNat 64 (4096 + 2 ^ 32) := by
  refine ⟨wideMask_wellFormed, reachable_wideMask soleThread (by decide), by decide,
    by decide, ⟨⟨1, .pointer⟩, [⟨⟨6, .i 32⟩, 1, .zext32⟩], 0x10000000⟩, by decide,
    ⟨(wideMaskKernel.region.block 0).ops.take 9, rfl, .inr (.inl ?_)⟩, by decide, by decide⟩
  decide

end Crabbit.Nvptx
