/-
  Crabbit.Llvm.GvnKeys

  What an expression key says of the operations that have it.

  The operands are those of the key, and the value is the key's, but for the
  flags no key has room for: `exact`, `disjoint`, `nneg`, and the fast-math
  flags of a cast.  Such a flag turns some values into poison, so of two
  operations with one key the one that promises less has the better value.
-/

import Crabbit.Llvm.Gvn

namespace Crabbit.Llvm

/-! ## Promises -/

def Op.attrs (T : AttrTable) : Op → Attrs
  | .generic _ attrs _ _ _ => T attrs
  | _ => {}

/-- Of the flags keys leave out, `b` has all that `a` has. -/
structure Attrs.KeptBy (a b : Attrs) : Prop where
  exact : a.exact = true → b.exact = true
  disjoint : a.disjoint = true → b.disjoint = true
  nneg : a.nneg = true → b.nneg = true
  nnan : a.fastMath.nnan = true → b.fastMath.nnan = true
  ninf : a.fastMath.ninf = true → b.fastMath.ninf = true

instance (a b : Attrs) : Decidable (a.KeptBy b) :=
  decidable_of_iff
    ((a.exact = true → b.exact = true) ∧ (a.disjoint = true → b.disjoint = true) ∧
      (a.nneg = true → b.nneg = true) ∧ (a.fastMath.nnan = true → b.fastMath.nnan = true) ∧
      (a.fastMath.ninf = true → b.fastMath.ninf = true))
    ⟨fun ⟨h1, h2, h3, h4, h5⟩ => ⟨h1, h2, h3, h4, h5⟩, fun ⟨h1, h2, h3, h4, h5⟩ => ⟨h1, h2, h3, h4, h5⟩⟩

/-! ## Fewer promises, better values -/

@[refl]
theorem PVal.RefinedBy.refl (x : PVal) : x.RefinedBy x := Or.inr rfl

/-- Where both have a value, the second is as good as the first. -/
def Better (x y : Option PVal) : Prop := ∀ u v, x = some u → y = some v → u.RefinedBy v

theorem Better.of_eq {x y : Option PVal} (h : x = y) : Better x y := by
  intro u v hu hv
  rw [h, hv] at hu
  cases hu
  exact .refl _

theorem Better.some {u v : PVal} (h : u.RefinedBy v) : Better (some u) (some v) := by
  intro u' v' hu hv
  cases hu
  cases hv
  exact h

theorem Better.map {f f' : PVal → PVal} (h : ∀ y, (f y).RefinedBy (f' y)) (x : Option PVal) :
    Better (x.map f) (x.map f') := by
  cases x with
  | none => exact .of_eq rfl
  | some y => exact .some (h y)

/-- A value that is poison under a condition, of which the other has a
    stronger one. -/
theorem Better.unless {c d : Prop} [Decidable c] [Decidable d] (h : d → c) (x : Option PVal) :
    Better (if c then Option.some .poison else x) (if d then Option.some .poison else x) := by
  by_cases hc : c
  · rw [if_pos hc]
    intro u v hu _
    cases hu
    exact Or.inl rfl
  · rw [if_neg hc, if_neg fun hd => hc (h hd)]
    exact .of_eq rfl

section Refines

variable {a b : Attrs}

theorem overflowing_congr (hnsw : a.nsw = b.nsw) (hnuw : a.nuw = b.nuw) (w : Nat) (s u : Int) :
    overflowing b w s u = overflowing a w s u := by
  unfold overflowing
  rw [hnsw, hnuw]

theorem unlessInexact_refined (h : a.KeptBy b) (rest : Int) (bits : Nat) :
    (unlessInexact b rest bits).RefinedBy (unlessInexact a rest bits) := by
  unfold unlessInexact
  by_cases hb : b.exact = true ∧ rest ≠ 0
  · rw [if_pos hb]
    exact Or.inl rfl
  · rw [if_neg hb, if_neg fun ha => hb ⟨h.exact ha.1, ha.2⟩]

theorem evalIntBin_better (h : a.KeptBy b) (hnsw : a.nsw = b.nsw) (hnuw : a.nuw = b.nuw)
    (op : IntBinOp) (w x y : Nat) : Better (evalIntBin op b w x y) (evalIntBin op a w x y) := by
  have hflow := overflowing_congr hnsw hnuw w
  cases op with
  | add => exact .of_eq (congrArg some (hflow _ _))
  | sub => exact .of_eq (congrArg some (hflow _ _))
  | mul => exact .of_eq (congrArg some (hflow _ _))
  | shl =>
    apply Better.of_eq
    show some (if w ≤ y then _ else overflowing b _ _ _) =
      some (if w ≤ y then _ else overflowing a _ _ _)
    rw [hflow]
  | lshr =>
    apply Better.some
    show PVal.RefinedBy (if w ≤ y then _ else _) (if w ≤ y then _ else _)
    split
    · rfl
    · exact unlessInexact_refined h _ _
  | ashr =>
    apply Better.some
    show PVal.RefinedBy (if w ≤ y then _ else _) (if w ≤ y then _ else _)
    split
    · rfl
    · exact unlessInexact_refined h _ _
  | or =>
    apply Better.some
    show PVal.RefinedBy (if _ then _ else _) (if _ then _ else _)
    by_cases hb : b.disjoint = true ∧ x &&& y ≠ 0
    · rw [if_pos hb]
      exact Or.inl rfl
    · rw [if_neg hb, if_neg fun ha => hb ⟨h.disjoint ha.1, ha.2⟩]
  | udiv =>
    show Better (if _ then _ else _) (if _ then _ else _)
    split
    · exact .of_eq rfl
    · exact .some (unlessInexact_refined h _ _)
  | sdiv =>
    show Better (if _ then _ else _) (if _ then _ else _)
    split
    · exact .of_eq rfl
    · exact .some (unlessInexact_refined h _ _)
  | and => exact .of_eq rfl
  | xor => exact .of_eq rfl
  | urem => exact .of_eq rfl
  | srem => exact .of_eq rfl

theorem evalBinary_better (h : a.KeptBy b) (hnsw : a.nsw = b.nsw) (hnuw : a.nuw = b.nuw)
    (op : IntBinOp) (w : Nat) (x y : PVal) :
    Better (evalBinary op b w x y) (evalBinary op a w x y) := by
  -- Flags only matter where both operands are integers.
  cases x with
  | int x =>
    cases y with
    | int y => exact evalIntBin_better h hnsw hnuw op w x y
    | _ => exact .of_eq rfl
  | _ => cases y <;> exact .of_eq rfl

theorem ruledOut_mono (h : a.KeptBy b) (M : Target) {ty : Ty} {bits : Nat}
    (hout : ruledOut M a.fastMath ty bits = true) : ruledOut M b.fastMath ty bits = true := by
  unfold ruledOut at *
  rw [Bool.or_eq_true, Bool.and_eq_true, Bool.and_eq_true] at *
  exact hout.imp (And.imp_left h.nnan) (And.imp_left h.ninf)

theorem flagged_refined (h : a.KeptBy b) (M : Target) (src dst : Ty) (x : Nat) (y : PVal) :
    (flagged M b.fastMath src dst x y).RefinedBy (flagged M a.fastMath src dst x y) := by
  cases y with
  | float z =>
    show PVal.RefinedBy (if _ then _ else _) (if _ then _ else _)
    by_cases hb : (ruledOut M b.fastMath src x || ruledOut M b.fastMath dst z) = true
    · rw [if_pos hb]
      exact Or.inl rfl
    · rw [if_neg hb, if_neg]
      intro ha
      apply hb
      rw [Bool.or_eq_true] at ha ⊢
      exact ha.imp (ruledOut_mono h M) (ruledOut_mono h M)
  | _ => exact Or.inr rfl

theorem evalCastVal_better (h : a.KeptBy b) (M : Target) (id : OpId) (src dst : Ty) (x : PVal) :
    Better (evalCastVal M id b src dst x) (evalCastVal M id a src dst x) := by
  cases x with
  | int x =>
    cases id with
    | zext =>
      show Better (src.intWidth.bind fun v => dst.intWidth.bind fun w => _)
        (src.intWidth.bind fun v => dst.intWidth.bind fun w => _)
      cases src.intWidth with
      | none => exact .of_eq rfl
      | some v =>
        cases dst.intWidth with
        | none => exact .of_eq rfl
        | some w =>
          apply Better.some
          show PVal.RefinedBy (if _ then _ else _) (if _ then _ else _)
          by_cases hb : b.nneg = true ∧ 2 ^ (v - 1) ≤ x
          · rw [if_pos hb]
            exact Or.inl rfl
          · rw [if_neg hb, if_neg fun ha => hb ⟨h.nneg ha.1, ha.2⟩]
    | uiToFp =>
      show Better (src.intWidth.bind fun v => _) (src.intWidth.bind fun v => _)
      cases src.intWidth with
      | none => exact .of_eq rfl
      | some v => exact .unless (fun ha => ⟨h.nneg ha.1, ha.2⟩) _
    | _ => exact .of_eq rfl
  | float x =>
    cases id with
    | fpExt =>
      show Better ((M.cast .fpExt src dst (.float x)).map _) ((M.cast .fpExt src dst _).map _)
      exact .map (flagged_refined h M src dst x) _
    | fpTrunc =>
      show Better ((M.cast .fpTrunc src dst (.float x)).map _) ((M.cast .fpTrunc src dst _).map _)
      exact .map (flagged_refined h M src dst x) _
    | _ => exact .of_eq rfl
  | _ => exact .of_eq rfl

end Refines

/-! ## The value of a key -/

def IdxKey.index : IdxKey → GepIndex
  | .const c => .constant c
  | .val v => .value v

theorem GepIndex.key_index (indices : List GepIndex) :
    (indices.map GepIndex.key).map IdxKey.index = indices := by
  rw [List.map_map]
  conv_rhs => rw [← List.map_id indices]
  apply List.map_congr_left
  intro i _
  cases i <;> rfl

namespace ExprKey

def operands : ExprKey → List Value
  | .bin _ lhs rhs _ _ | .fbin _ lhs rhs _ _ | .icmp _ lhs rhs | .fcmp _ lhs rhs _ => [lhs, rhs]
  | .fneg arg _ | .cast _ arg _ | .extract arg _ => [arg]
  | .select cond trueVal falseVal _ => [cond, trueVal, falseVal]
  | .gep _ base indices => base :: (indices.map IdxKey.index).flatMap GepIndex.operands

/-- The value of an operation with the key; the attributes are for the flags
    the key leaves out. -/
def eval (M : Target) (a : Attrs) : ExprKey → List PVal → Option PVal
  | .bin id _ _ ty flags, [x, y] => id.intBin?.bind fun op => ty.intWidth.bind fun w =>
    evalBinary op { a with nsw := flags.1, nuw := flags.2 } w x y
  | .fbin id _ _ ty flags, [x, y] => evalFBin M id flags ty x y
  | .fneg arg flags, [x] => evalFNeg M flags arg.ty x
  | .cast id arg ty, [x] => evalCastVal M id a arg.ty ty x
  | .icmp predicate lhs _, [x, y] => evalICmpVal M predicate lhs.ty x y
  | .fcmp predicate lhs _ flags, [x, y] => evalFCmp M predicate flags lhs.ty x y
  | .select _ trueVal _ flags, [x, y, z] => evalSelect M flags trueVal.ty y z x
  | .gep ty _ indices, x :: xs => evalGep M ty (indices.map IdxKey.index) x xs
  | .extract _ path, [x] => x.field path
  | _, _ => none

/-- Whether the kind has flags its key leaves out. -/
def leavesOut : ExprKey → Bool
  | .bin .. | .cast .. => true
  | _ => false

theorem eval_flags {key : ExprKey} (h : key.leavesOut = false) (M : Target) (a b : Attrs)
    (args : List PVal) : key.eval M a args = key.eval M b args := by
  cases key with
  | bin => cases h
  | cast => cases h
  | _ => rcases args with _ | ⟨x, _ | ⟨y, _ | ⟨z, _ | ⟨w, args⟩⟩⟩⟩ <;> rfl

/-- The operation with fewer flags has the better value. -/
theorem eval_better {a b : Attrs} (h : a.KeptBy b) (M : Target) (key : ExprKey)
    (args : List PVal) : Better (key.eval M b args) (key.eval M a args) := by
  match key, args with
  | .bin id lhs rhs ty flags, [x, y] =>
    show Better (id.intBin?.bind _) (id.intBin?.bind _)
    cases id.intBin? with
    | none => exact .of_eq rfl
    | some op =>
      show Better (ty.intWidth.bind _) (ty.intWidth.bind _)
      cases ty.intWidth with
      | none => exact .of_eq rfl
      | some w =>
        apply evalBinary_better (a := { a with nsw := flags.1, nuw := flags.2 })
          (b := { b with nsw := flags.1, nuw := flags.2 }) _ rfl rfl
        exact ⟨h.exact, h.disjoint, h.nneg, h.nnan, h.ninf⟩
  | .cast id arg ty, [x] => exact evalCastVal_better h M id arg.ty ty x
  -- The other keys have all the flags of their operations.
  | .fbin .., _ | .fneg .., _ | .icmp .., _ | .fcmp .., _ | .select .., _ | .gep .., _
  | .extract .., _ => exact .of_eq (eval_flags rfl M b a _)
  | .bin .., [] | .bin .., [_] | .bin .., _ :: _ :: _ :: _ => exact .of_eq rfl
  | .cast .., [] | .cast .., _ :: _ :: _ => exact .of_eq rfl

end ExprKey

/-! ## Operations with a key -/

variable {T : AttrTable}

/-- Such an operation is pure, has one result, and is evaluated by its key. -/
theorem exprKey_spec {op : Op} {key : ExprKey} (h : exprKey T op = some key) :
    op.opid.isPure = true ∧ op.succs = [] ∧ (∃ r, op.results = [r]) ∧
      op.operands = key.operands ∧
      ∀ M args, op.evalPure T M args = key.eval M (op.attrs T) args := by
  unfold exprKey at h
  split at h
  · rename_i id attrs r lhs rhs
    -- Two operands: one kind after the other.
    by_cases hbin : id.intBin?.isSome
    · rw [if_pos hbin] at h
      cases h
      refine ⟨by simp [OpId.isPure, Op.opid, hbin], rfl, ⟨r, rfl⟩, rfl, fun M args => ?_⟩
      obtain ⟨op, hop⟩ := Option.isSome_iff_exists.mp hbin
      rcases args with _ | ⟨x, _ | ⟨y, _ | ⟨z, args⟩⟩⟩ <;> try rfl
      simp only [Op.evalPure, ExprKey.eval, hop, Op.attrs, Option.bind_some]
    rw [if_neg hbin] at h
    have hnone : id.intBin? = none := Option.not_isSome_iff_eq_none.mp hbin
    by_cases hfbin : id.isFBin
    · rw [if_pos hfbin] at h
      cases h
      refine ⟨by simp [OpId.isPure, Op.opid, hfbin], rfl, ⟨r, rfl⟩, rfl, fun M args => ?_⟩
      rcases args with _ | ⟨x, _ | ⟨y, _ | ⟨z, args⟩⟩⟩ <;> try rfl
      simp only [Op.evalPure, ExprKey.eval, hnone, if_pos hfbin]
    rw [if_neg hfbin] at h
    by_cases hicmp : id = .icmp
    · subst hicmp
      cases h
      refine ⟨rfl, rfl, ⟨r, rfl⟩, rfl, fun M args => ?_⟩
      rcases args with _ | ⟨x, _ | ⟨y, _ | ⟨z, args⟩⟩⟩ <;> rfl
    rw [if_neg hicmp] at h
    by_cases hfcmp : id = .fcmp
    · subst hfcmp
      cases h
      refine ⟨rfl, rfl, ⟨r, rfl⟩, rfl, fun M args => ?_⟩
      rcases args with _ | ⟨x, _ | ⟨y, _ | ⟨z, args⟩⟩⟩ <;> rfl
    rw [if_neg hfcmp] at h
    cases h
  · rename_i id attrs r arg
    by_cases hcast : id.isCast
    · rw [if_pos hcast] at h
      cases h
      refine ⟨by simp [OpId.isPure, Op.opid, hcast], rfl, ⟨r, rfl⟩, rfl, fun M args => ?_⟩
      rcases args with _ | ⟨x, _ | ⟨y, args⟩⟩ <;> try rfl
      simp only [Op.evalPure, ExprKey.eval, if_pos hcast, Op.attrs]
    rw [if_neg hcast] at h
    by_cases hfneg : id = .fneg
    · subst hfneg
      cases h
      refine ⟨rfl, rfl, ⟨r, rfl⟩, rfl, fun M args => ?_⟩
      rcases args with _ | ⟨x, _ | ⟨y, args⟩⟩ <;> rfl
    rw [if_neg hfneg] at h
    by_cases hextract : id = .extractValue
    · subst hextract
      cases h
      refine ⟨rfl, rfl, ⟨r, rfl⟩, rfl, fun M args => ?_⟩
      rcases args with _ | ⟨x, _ | ⟨y, args⟩⟩ <;> rfl
    rw [if_neg hextract] at h
    cases h
  · cases h
    refine ⟨rfl, rfl, ⟨_, rfl⟩, rfl, fun M args => ?_⟩
    rcases args with _ | ⟨x, _ | ⟨y, _ | ⟨z, _ | ⟨w, args⟩⟩⟩⟩ <;> rfl
  · rename_i r base ty indices
    cases h
    refine ⟨rfl, rfl, ⟨r, rfl⟩, ?_, fun M args => ?_⟩
    · show base :: _ = base :: _
      rw [GepIndex.key_index]
    · rcases args with _ | ⟨x, args⟩
      · rfl
      · show evalGep M ty indices x args = evalGep M ty _ x args
        rw [GepIndex.key_index]
  · cases h
    refine ⟨rfl, rfl, ⟨_, rfl⟩, rfl, fun M args => ?_⟩
    rcases args with _ | ⟨x, _ | ⟨y, args⟩⟩ <;> rfl
  · cases h

/-- Two operations with one key: wherever both have a value, that of the one
    with fewer promises is the better. -/
theorem exprKey_refined {op op' : Op} {key : ExprKey} (h : exprKey T op = some key)
    (h' : exprKey T op' = some key) (hkept : (op.attrs T).KeptBy (op'.attrs T)) (M : Target)
    (args : List PVal) : Better (op'.evalPure T M args) (op.evalPure T M args) := by
  obtain ⟨-, -, -, -, heval⟩ := exprKey_spec h
  obtain ⟨-, -, -, -, heval'⟩ := exprKey_spec h'
  rw [heval, heval']
  exact key.eval_better hkept M args

end Crabbit.Llvm
