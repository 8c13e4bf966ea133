/-
  Crabbit.Isel.BlockArgsSound

  The copies at a branch edge happen at once.

  The copies of a list are emitted one by one, in an order that the laws of
  parallel copies justify.  The incoming values are flattened first, which
  writes fresh registers only, so what a leaf in a register brings to its
  destination is its value from before the edge.
-/

import Crabbit.Isel.BlockArgs
import Crabbit.Isel.MaterializeSound

namespace Crabbit.Isel

open Crabbit.Lib
open Crabbit.Llvm (Ty Value)

variable {T : Target} {M : Machine T}

/-! ## Copies -/

/-- What the copies of a back end do; `fit` is what a register keeps of a value. -/
structure Copies.Laws (C : Copies T) (M : Machine T)
    (fit : T.Register → BitVec 128 → BitVec 128) : Prop where
  scratch_virtual : ∀ r n, IsVirtual T n (C.scratch r n)
  move : ∀ {d r inst}, C.move d r = some inst → ∀ s, ∃ s', M.run [inst] s = some s' ∧
    M.read s' = Function.update (M.read s) d (fit d (M.read s r))
  /-- A scratch register holds the values of the register it is for. -/
  scratch_fit : ∀ {r n inst}, C.move (C.scratch r n) r = some inst → ∀ s,
    fit (C.scratch r n) (M.read s r) = M.read s r
  /-- It can be copied wherever that one can. -/
  scratch_move : ∀ {d r}, (C.move d r).isSome = true → ∀ n,
    (C.move (C.scratch r n) r).isSome = true ∧ (C.move d (C.scratch r n)).isSome = true
  clear : ∀ d sel, ∃ sel' code, C.clear d sel = .ok ((), sel') ∧ sel.next ≤ sel'.next ∧
    sel'.code = sel.code ++ code ∧ ∀ s, ∃ s', M.run code s = some s' ∧ M.read s' d = 0 ∧
      ∀ r, r ≠ d → ¬FreshFrom T sel.next r → M.read s' r = M.read s r
  fit_read : ∀ s r, fit r (M.read s r) = M.read s r
  fit_word : ∀ r v, (fit r v).setWidth 64 = (fit r ((v.setWidth 64).setWidth 128)).setWidth 64

/-- The registers of copies. -/
def OldCopies (T : Target) (next : Nat) (pending : List (Copy T.Register)) : Prop :=
  ∀ copy ∈ pending, ¬FreshFrom T next copy.1 ∧ ∀ r, copy.2 = some r → ¬FreshFrom T next r

theorem OldCopies.mono {i j : Nat} {pending pending' : List (Copy T.Register)} (hij : i ≤ j)
    (hsub : pending' ⊆ pending) (h : OldCopies T i pending) : OldCopies T j pending' := fun copy hc =>
  ⟨fun hf => (h copy (hsub hc)).1 (hf.mono hij), fun r hr hf => (h copy (hsub hc)).2 r hr (hf.mono hij)⟩

theorem OldCopies.sources {next : Nat} {pending : List (Copy T.Register)}
    (h : OldCopies T next pending) : ∀ r ∈ sources pending, ¬FreshFrom T next r := by
  intro r hr
  obtain ⟨d, hd⟩ := mem_sources.mp hr
  exact (h _ hd).2 r rfl

/-- A register that has been allocated is not fresh any more. -/
theorem not_freshFrom_succ (M : Machine T) {n : Nat} {r : T.Register} (h : IsVirtual T n r) :
    ¬FreshFrom T (n + 1) r := by
  rintro ⟨i, hi, hv⟩
  exact absurd (M.virtual_inj h hv) (Nat.ne_of_lt hi)

section Copies

variable {C : Copies T} {fit : T.Register → BitVec 128 → BitVec 128} (hC : C.Laws M fit)

theorem run_append {code code' : List T.Inst} {s s' s'' : M.State} (h : M.run code s = some s')
    (h' : M.run code' s' = some s'') : M.run (code ++ code') s = some s'' := by
  have hrun : (M.run code s).bind (M.run code') = some s'' := by rw [h, Option.bind_some, h']
  exact (runInsts_append M.step code code' s).trans hrun

include hC

/-- One copy, on its own. -/
theorem emitCopy_spec {copy : Copy T.Register} {sel sel' : Selection T}
    (h : C.emitCopy copy sel = .ok ((), sel')) : sel.next ≤ sel'.next ∧ ∃ code,
      sel'.code = sel.code ++ code ∧ ∀ s, ∃ s', M.run code s = some s' ∧
        M.read s' copy.1 = received fit 0 (M.read s) copy.1 copy.2 ∧
        ∀ r, r ≠ copy.1 → ¬FreshFrom T sel.next r → M.read s' r = M.read s r := by
  obtain ⟨d, src⟩ := copy
  cases src with
  | none =>
    obtain ⟨sel'', code, hclear, hnext, hcode, hrun⟩ := hC.clear d sel
    obtain ⟨-, rfl⟩ := Prod.mk.inj (Except.ok.inj (hclear.symm.trans h))
    exact ⟨hnext, code, hcode, hrun⟩
  | some r =>
    rw [Copies.emitCopy] at h
    cases hmove : C.move d r with
    | none =>
      rw [hmove] at h
      cases h
    | some inst =>
      rw [hmove] at h
      cases h
      refine ⟨Nat.le_refl _, [inst], rfl, fun s => ?_⟩
      obtain ⟨s', hrun, hread⟩ := hC.move hmove s
      refine ⟨s', hrun, ?_, fun r' hne _ => ?_⟩
      · rw [hread, Function.update_self, received]
      · rw [hread, Function.update_of_ne hne]

/-- The copies leave each destination with what its source held before them. -/
theorem emitCopies_assigns {pending : List (Copy T.Register)} {sel sel' : Selection T}
    (hold : OldCopies T sel.next pending) (hnodup : (pending.map Prod.fst).Nodup)
    (h : C.emitCopies pending sel = .ok ((), sel')) (s : M.State) : ∃ code s',
      sel'.code = sel.code ++ code ∧ M.run code s = some s' ∧
      Assigns fit 0 (fun r => ¬FreshFrom T sel.next r) (M.read s) (M.read s') pending := by
  revert sel'
  fun_induction C.emitCopies pending sel generalizing s <;> intro sel' h
  case case1 sel =>
    cases h
    exact ⟨[], s, (List.append_nil _).symm, rfl, Assigns.nil⟩
  case case2 => cases h
  case case3 sel first rest copy hfind _ sel₁ hcopy ih =>
    obtain ⟨earlier, later, hsplit, herase, hunread⟩ := split_of_find? hfind
    obtain ⟨hnext, code, hcode, hrun⟩ := emitCopy_spec hC hcopy
    obtain ⟨s₁, hs₁, hmid, hframe⟩ := hrun s
    have hsub : (first :: rest).eraseP (unread (first :: rest)) ⊆ first :: rest :=
      List.eraseP_sublist.subset
    obtain ⟨code', s', hcode', hrun', hassigns⟩ := ih (hold.mono hnext hsub)
      ((List.eraseP_sublist.map Prod.fst).nodup hnodup) s₁ h
    rw [herase] at hassigns
    have hmem : copy ∈ first :: rest := List.mem_of_find?_eq_some hfind
    refine ⟨code ++ code', s', ?_, run_append hs₁ hrun', ?_⟩
    · rw [hcode', hcode, List.append_assoc]
    · have hgrow : ∀ r, ¬FreshFrom T sel.next r → ¬FreshFrom T sel₁.next r :=
        fun r hr hf => hr (hf.mono hnext)
      exact Assigns.first hsplit (hold copy hmem).1 hnodup hunread hgrow hold.sources hmid
        (fun r hr hne => hframe r hne hr) hassigns
  case case4 => cases h
  case case5 sel first rest hfind inst hmove ih =>
    obtain ⟨s₁, hs₁, hread⟩ := hC.move hmove s
    have hvirtual := hC.scratch_virtual first.1 sel.next
    have hfresh : FreshFrom T sel.next (C.scratch first.1 sel.next) :=
      ⟨sel.next, Nat.le_refl _, hvirtual⟩
    have hold' : OldCopies T (sel.next + 1)
        (redirect first.1 (C.scratch first.1 sel.next) (first :: rest)) := by
      intro copy hcopy
      obtain ⟨copy', hcopy', rfl⟩ := List.mem_map.mp hcopy
      refine ⟨fun hf => (hold copy' hcopy').1 (hf.mono (Nat.le_succ _)), fun r hr => ?_⟩
      split at hr
      · rw [← Option.some.inj hr]
        exact not_freshFrom_succ M hvirtual
      · exact fun hf => (hold copy' hcopy').2 r hr (hf.mono (Nat.le_succ _))
    obtain ⟨code', s', hcode', hrun', hassigns⟩ := ih hold' (by rwa [redirect_fst]) s₁ h
    refine ⟨[inst] ++ code', s', ?_, run_append hs₁ hrun', ?_⟩
    · rw [hcode', List.append_assoc]
    · have hgrow : ∀ r, ¬FreshFrom T sel.next r → ¬FreshFrom T (sel.next + 1) r :=
        fun r hr hf => hr (hf.mono (Nat.le_succ _))
      refine Assigns.save hgrow hold.sources ?_ (fun r hr => ?_) hassigns
      · rw [hread, Function.update_self, hC.scratch_fit hmove]
      · have hne : r ≠ C.scratch first.1 sel.next := by
          rintro rfl
          exact hr hfresh
        rw [hread, Function.update_of_ne hne]

/-- Copies between compatible registers can all be emitted. -/
theorem exists_emitCopies {pending : List (Copy T.Register)} {sel : Selection T}
    (h : ∀ d r, (d, some r) ∈ pending → (C.move d r).isSome = true) :
    ∃ sel', C.emitCopies pending sel = .ok ((), sel') := by
  fun_induction C.emitCopies pending sel
  case case1 sel => exact ⟨sel, rfl⟩
  case case2 sel first rest copy hfind e hcopy =>
    obtain ⟨d, src⟩ := copy
    have hmem := List.mem_of_find?_eq_some hfind
    cases src with
    | none =>
      obtain ⟨sel', -, hclear, -⟩ := hC.clear d sel
      cases hclear.symm.trans hcopy
    | some r =>
      obtain ⟨inst, hinst⟩ := Option.isSome_iff_exists.mp (h d r hmem)
      rw [Copies.emitCopy, hinst] at hcopy
      cases hcopy
  case case3 sel first rest copy hfind _ sel₁ hcopy ih =>
    exact ih fun d r hr => h d r (List.eraseP_sublist.subset hr)
  case case4 sel first rest hfind hmove =>
    -- The first destination is read by some copy.
    have hread : first.1 ∈ sources (first :: rest) := by
      by_contra hnot
      exact List.find?_eq_none.mp hfind first List.mem_cons_self (unread_iff.mpr hnot)
    obtain ⟨d, hd⟩ := mem_sources.mp hread
    have hscratch := (hC.scratch_move (h d first.1 hd) sel.next).1
    rw [hmove] at hscratch
    cases hscratch
  case case5 sel first rest hfind inst hmove ih =>
    refine ih fun d r hr => ?_
    obtain ⟨⟨d', src⟩, hcopy, heq⟩ := List.mem_map.mp hr
    obtain ⟨rfl, hsrc⟩ := Prod.mk.inj heq
    split at hsrc
    · next hfirst =>
      rw [← Option.some.inj hsrc]
      exact (hC.scratch_move (h d' first.1 (hfirst ▸ hcopy)) sel.next).2
    · exact h d' r (hsrc ▸ hcopy)

end Copies

/-! ## Leaves -/

/-- What a leaf of an incoming value brings: nothing, a register as it is, or a
    word in a fresh register; `other` where the value was in no register. -/
inductive Leaf where
  | undef
  | whole (x : BitVec 128)
  | word (x : BitVec 64)
  | other

/-- Whether integers of a type have bits of a register to spare. -/
def isNarrow (ty : Ty) : Bool :=
  match integerWidthAndSignedness ty with
  | some (width, _) => decide (width < 64)
  | none => false

/-- Whether a register is in the floating-point file. -/
def isFpr (T : Target) (r : T.Register) : Bool := (T.fp.bind fun F => F.kindOf r).isSome

/-- A register as a value of a scalar type.  It is moved between the files, and
    narrow integers are normalized. -/
def registerLeaf (M : Machine T) (s : M.State) (ty : Ty) (r : T.Register) : Leaf :=
  match Lowering.fileOf T ty with
  | some (_, none) => .whole (M.read s r)
  | some (_, some kind) =>
    if isFpr T r = true then .whole (M.read s r) else .word (kind.keep (M.word s r))
  | none =>
    if isNarrow ty = true ∨ isFpr T r = true then .word (normalizeWord ty (M.word s r))
    else .whole (M.read s r)

/-- The leaves of a value of a scalar type. -/
def scalarLeaves (M : Machine T) (s : M.State) (value : LoweredValue T.Register) (ty : Ty) :
    List Leaf :=
  match is128BitInteger ty, value with
  | true, .undef => [.undef, .undef]
  | true, .regPair lo hi => [.whole (M.read s lo), .whole (M.read s hi)]
  | true, .reg lo =>
    [.whole (M.read s lo), .word (if isSigned ty = true then mask (M.word s lo).msb else 0)]
  | true, _ => [.other, .other]
  | false, .undef => [.undef]
  | false, .reg r => [registerLeaf M s ty r]
  | false, _ => [.other]

/-- Lists of leaves, one after another. -/
def leavesEach {α : Type} (f : α → Except String (List Leaf)) :
    List α → Except String (List Leaf)
  | [] => pure []
  | value :: values => do
    let first ← f value
    let rest ← leavesEach f values
    pure (first ++ rest)

mutual

/-- The leaves of an incoming value, in the order of its registers. -/
def Lowering.leaves (L : Lowering T) (M : Machine T) (s : M.State) :
    Ty → LoweredValue T.Register → Except String (List Leaf)
  | .unit, _ | .void, _ => pure []
  | .array elem size, value => do
    let values ← L.incomingFields value (.array elem size) size
    leavesEach (fun value => leaves L M s elem value) values
  | .struct fields, value => do
    let values ← L.incomingFields value (.struct fields) fields.length
    fieldLeaves L M s fields values
  | .opaqueStruct, _ => throw "opaque struct stack slot"
  | ty, value => do
    let value ← L.adaptValueToType value ty
    pure (scalarLeaves M s value ty)

def Lowering.fieldLeaves (L : Lowering T) (M : Machine T) (s : M.State) :
    List Ty → List (LoweredValue T.Register) → Except String (List Leaf)
  | ty :: tys, value :: values => do
    let first ← leaves L M s ty value
    let rest ← fieldLeaves L M s tys values
    pure (first ++ rest)
  | _, _ => pure []

end

/-! ## Flattening -/

/-- The register of a leaf, by the state from before the edge. -/
def Carries (start : Start M) (facts : List (Fact T)) : Option T.Register → Leaf → Prop
  | none, .undef => True
  | some r, .whole x => ¬FreshFrom T start.next r ∧ M.read start.state r = x
  | some r, .word w => ⟨r, w⟩ ∈ facts
  | some r, .other => ∃ w, ⟨r, w⟩ ∈ facts
  | _, _ => False

theorem Carries.mono {start : Start M} {facts facts' : List (Fact T)} (hsub : facts ⊆ facts') :
    ∀ {r : Option T.Register} {leaf : Leaf}, Carries start facts r leaf → Carries start facts' r leaf
  | none, .undef, _ => trivial
  | some _, .whole _, h => h
  | some _, .word _, h => hsub h
  | some _, .other, ⟨w, h⟩ => ⟨w, hsub h⟩

/-- A selection of registers for these leaves. -/
def FlattensTo (start : Start M) (m : Select T (List (Option T.Register)))
    (e : Except String (List Leaf)) : Prop :=
  ∀ facts, Ensures (Known M start [] facts none) m fun regs sel => ∃ facts' leaves,
    facts ⊆ facts' ∧ Known M start [] facts' none sel ∧ e = .ok leaves ∧
    List.Forall₂ (Carries start facts') regs leaves

section Flatten

variable {start : Start M}

theorem FlattensTo.nil : FlattensTo start (pure []) (pure []) :=
  fun facts => Ensures.pure fun _ h => ⟨facts, [], List.Subset.refl _, h, rfl, .nil⟩

theorem FlattensTo.append {m m' : Select T (List (Option T.Register))}
    {e e' : Except String (List Leaf)} (h : FlattensTo start m e) (h' : FlattensTo start m' e') :
    FlattensTo start (do let first ← m; let rest ← m'; pure (first ++ rest))
      (do let first ← e; let rest ← e'; pure (first ++ rest)) := by
  intro facts
  refine (h facts).bind fun first sel ⟨facts₁, leaves₁, hsub₁, hk₁, he, hc₁⟩ => ?_
  refine ((h' facts₁).bind fun rest sel ⟨facts₂, leaves₂, hsub₂, hk₂, he', hc₂⟩ => ?_) sel hk₁
  subst he he'
  refine (Ensures.pure fun sel hk => ?_) sel hk₂
  exact ⟨facts₂, leaves₁ ++ leaves₂, List.Subset.trans hsub₁ hsub₂, hk, rfl,
    List.rel_append (hc₁.imp fun _ _ hc => hc.mono hsub₂) hc₂⟩

theorem FlattensTo.ofExcept {α : Type} {x : Except String α}
    {k : α → Select T (List (Option T.Register))} {k' : α → Except String (List Leaf)}
    (h : ∀ a, x = .ok a → FlattensTo start (k a) (k' a)) :
    FlattensTo start (ofExcept x >>= k) (x >>= k') := by
  cases x with
  | error e =>
    intro facts sel _ regs sel' hrun
    cases hrun
  | ok a => exact h a rfl

/-- A register that is not fresh holds what it held. -/
theorem Known.old {facts : List (Fact T)} {r : T.Register} {sel : Selection T}
    (h : Known M start [] facts none sel) (hr : ¬FreshFrom T start.next r) :
    Known M start [] (⟨r, M.word start.state r⟩ :: facts) none sel := by
  obtain ⟨code, s, hcode, hreach⟩ := h.reaches
  have hword : M.word s r = M.word start.state r := by
    rw [Machine.word, Machine.word, hreach.unchanged r hr]
  exact ⟨h.next_le, ⟨code, s, hcode, hreach.runs, hreach.unchanged,
    List.forall_mem_cons.mpr ⟨hword, hreach.holds⟩, hreach.flags⟩,
    List.forall_mem_cons.mpr ⟨fun hf => hr (hf.mono h.next_le), h.allocated⟩, h.reserved_virtual,
    h.reserved_fresh, fun d hd => absurd hd List.not_mem_nil, h.nodup⟩

/-- A selection of one register for a leaf. -/
def Brings (start : Start M) (m : Select T T.Register) (leaf : Leaf) : Prop :=
  ∀ facts, Ensures (Known M start [] facts none) m fun r sel => ∃ facts',
    facts ⊆ facts' ∧ Known M start [] facts' none sel ∧ Carries start facts' (some r) leaf

theorem Keeps.brings {m : Select T T.Register} (h : Keeps start m) : Brings start m .other := by
  intro facts
  refine (h facts).weaken ?_
  rintro r sel ⟨v, hk⟩
  exact ⟨_, List.subset_cons_self _ _, hk, v, List.mem_cons_self⟩

theorem Brings.flattensTo {m : Select T T.Register} {leaf : Leaf} (h : Brings start m leaf) :
    FlattensTo start (do let reg ← m; pure [some reg]) (pure [leaf]) := by
  intro facts
  refine (h facts).bind fun r sel ⟨facts', hsub, hk, hc⟩ => ?_
  exact (Ensures.pure fun _ hk => ⟨facts', [leaf], hsub, hk, rfl, .cons hc .nil⟩) sel hk

theorem brings_existing {r : T.Register} (hr : ¬FreshFrom T start.next r) :
    Brings start (pure r) (.whole (M.read start.state r)) :=
  fun facts => Ensures.pure fun _ hk => ⟨facts, List.Subset.refl _, hk, hr, rfl⟩

/-- A word that is computed from what an old register holds. -/
theorem brings_word {m : Select T T.Register} {r : T.Register} {w : BitVec 64 → BitVec 64}
    (hr : ¬FreshFrom T start.next r)
    (h : ∀ x facts, Yields (Known M start [] (⟨r, x⟩ :: facts) none) m
      fun d => Known M start [] (⟨d, w x⟩ :: facts) none) :
    Brings start m (.word (w (M.word start.state r))) := by
  intro facts sel hknown
  refine ((h _ facts).ensures.weaken fun d sel hk => ?_) sel (hknown.old hr)
  exact ⟨_, List.subset_cons_self _ _, hk, List.mem_cons_self⟩

section Scalars

variable {L : Lowering T} (hwords : ∀ op, op ≠ .asr → M.has op) {r : T.Register} {ty : Ty}
  (hr : ¬FreshFrom T start.next r)

theorem materialize_gpr (h : isFpr T r = false) :
    L.materialize (.reg r) = (pure r : Select T T.Register) := by
  have hnone : T.fp.bind (fun F => (F.kindOf r).map (F.toGpr · · r)) = none := by
    rw [isFpr, Option.isSome_eq_false_iff, Option.isNone_iff_eq_none] at h
    cases hfp : T.fp with
    | none => rfl
    | some F =>
      rw [hfp, Option.bind_some] at h
      rw [Option.bind_some, h, Option.map_none]
  rw [Lowering.materialize, hnone]

theorem materialize_fpr (h : isFpr T r = true) : ∃ F kind, T.fp = some F ∧
    L.materialize (.reg r) = Lowering.emitInto fun d => F.toGpr kind d r := by
  obtain ⟨kind, hkind⟩ := Option.isSome_iff_exists.mp h
  obtain ⟨F, hF, hkindOf⟩ := Option.bind_eq_some_iff.mp hkind
  refine ⟨F, kind, hF, ?_⟩
  have hinst : T.fp.bind (fun F => (F.kindOf r).map (F.toGpr · · r)) = some (F.toGpr kind · r) := by
    rw [hF, Option.bind_some, hkindOf, Option.map_some]
  rw [Lowering.materialize, hinst]

theorem normalizeIntegerReg_wide (h : isNarrow ty = false) :
    Lowering.normalizeIntegerReg r ty = (pure r : Select T T.Register) := by
  unfold Lowering.normalizeIntegerReg
  cases hty : integerWidthAndSignedness ty with
  | none => rfl
  | some widthSigned =>
    have hwidth : 64 ≤ widthSigned.1 := by
      rw [isNarrow, hty] at h
      exact Nat.le_of_not_lt (of_decide_eq_false h)
    exact if_pos hwidth

theorem Lowering.adaptValueToType_reg (L : Lowering T) (h : isAggregateTy ty = false)
    (r : T.Register) : L.adaptValueToType (.reg r) ty = .ok (.reg r) := by
  rw [Lowering.adaptValueToType, h]
  · split <;> rfl
  all_goals simp

include hwords hr

theorem brings_materialize_normalize :
    Brings start (do let reg ← L.materialize (.reg r); Lowering.normalizeIntegerReg reg ty)
      (if isNarrow ty = true ∨ isFpr T r = true then .word (normalizeWord ty (M.word start.state r))
        else .whole (M.read start.state r)) := by
  by_cases hfpr : isFpr T r = true
  · obtain ⟨F, kind, hF, heq⟩ := materialize_fpr (L := L) hfpr
    rw [if_pos (.inr hfpr), heq]
    refine brings_word hr fun x facts => ?_
    refine (yields_freshVreg.bind fun d => (yields_toGpr hF).bind fun _ => .pure fun _ h => h).bind
      fun d => ?_
    refine (yields_normalizeIntegerReg hwords ty).weaken fun d' sel hk => ?_
    exact hk.one
  · rw [materialize_gpr (L := L) (Bool.eq_false_of_not_eq_true hfpr)]
    by_cases hnarrow : isNarrow ty = true
    · rw [if_pos (.inl hnarrow)]
      refine brings_word hr fun x facts => ?_
      exact (yields_normalizeIntegerReg (r := r) hwords ty).weaken fun d' sel hk => hk.one
    · rw [if_neg (not_or.mpr ⟨hnarrow, hfpr⟩)]
      show Brings start (Lowering.normalizeIntegerReg r ty) _
      rw [normalizeIntegerReg_wide (Bool.eq_false_of_not_eq_true hnarrow)]
      exact brings_existing hr

/-- A register as a value of a scalar type. -/
theorem brings_materializeTyped (hagg : isAggregateTy ty = false)
    (h128 : is128BitInteger ty = false) :
    Brings start (L.materializeTyped (.reg r) ty) (registerLeaf M start.state ty r) := by
  have hadapt := L.adaptValueToType_reg hagg r
  rw [Lowering.materializeTyped, registerLeaf]
  split
  · next e he => cases hadapt.symm.trans he
  · next value hvalue =>
    cases hadapt.symm.trans hvalue
    have hsingle : Lowering.isMultiField (.reg r) = false := rfl
    rw [hsingle, h128, if_neg (by decide), if_neg (by decide)]
    cases hfile : Lowering.fileOf T ty with
    | none => exact brings_materialize_normalize hwords hr
    | some file =>
      obtain ⟨F, kind⟩ := file
      have hF := fileOf_fp hfile
      cases kind with
      | none =>
        show Brings start (Lowering.materializeSimd F (.reg r)) _
        rw [Lowering.materializeSimd]
        split
        · exact brings_existing hr
        · exact fun _ => Ensures.throw
      | some kind =>
        show Brings start (L.materializeFp F (.reg r) kind) _
        rw [Lowering.materializeFp.eq_def, isFpr, hF, Option.bind_some, Lowering.inFpFile]
        cases hkind : F.kindOf r with
        | some kind' =>
          show Brings start (if kind' = kind then pure r else throw _) _
          split
          · exact brings_existing hr
          · exact fun _ => Ensures.throw
        | none =>
          have hgpr : isFpr T r = false := by rw [isFpr, hF, Option.bind_some, hkind]; rfl
          show Brings start (do
            let gpr ← L.materialize (.reg r)
            let dst ← Lowering.freshFpr F kind
            emit (F.toFpr kind dst gpr)
            pure dst) _
          rw [materialize_gpr (L := L) hgpr]
          refine brings_word hr fun x facts => ?_
          have hbind : Yields (Known M start [] (⟨r, x⟩ :: facts) none)
              (do let dst ← Lowering.freshFpr F kind; emit (F.toFpr kind dst r); pure dst)
              (fun d => Known M start [] (⟨d, kind.keep x⟩ :: facts) none) :=
            (yields_freshFpr hF).bind fun dst => (yields_toFpr hF).bind fun _ =>
              .pure fun _ hk => hk.one
          exact hbind

end Scalars

section Values

variable {L : Lowering T} (hwords : ∀ op, op ≠ .asr → M.has op) (hext : L.SignExtends M)

theorem KeepsPair.flattensTo {m : Select T (Pair T)} (h : KeepsPair start m) :
    FlattensTo start (do let pair ← m; pure [some pair.1, some pair.2]) (pure [.other, .other]) := by
  intro facts
  refine (h facts).bind ?_
  rintro pair sel ⟨lo, hi, hk⟩
  refine (Ensures.pure fun sel hk => ?_) sel hk
  refine ⟨_, _, List.subset_cons_of_subset _ (List.subset_cons_self _ _), hk, rfl, ?_⟩
  exact .cons ⟨lo, List.mem_cons_self⟩
    (.cons ⟨hi, List.mem_cons_of_mem _ List.mem_cons_self⟩ .nil)

include hext

/-- A register as a 128-bit value: its high half is computed. -/
theorem flattensTo_extended {lo : T.Register} {ty : Ty} (h : ¬FreshFrom T start.next lo) :
    FlattensTo start (do let pair ← L.materializePair (.reg lo) ty; pure [some pair.1, some pair.2])
      (pure [.whole (M.read start.state lo),
        .word (if isSigned ty = true then mask (M.word start.state lo).msb else 0)]) := by
  have hpair : ∀ {m : Select T T.Register} {w : BitVec 64 → BitVec 64}, (∀ x facts,
      Yields (Known M start [] (⟨lo, x⟩ :: facts) none) m
        fun hi => Known M start [] (⟨hi, w x⟩ :: ⟨lo, x⟩ :: facts) none) →
      FlattensTo start (do
        let pair ← (do let hi ← m; pure (lo, hi))
        pure [some pair.1, some pair.2])
        (pure [.whole (M.read start.state lo), .word (w (M.word start.state lo))]) := by
    intro m w hm facts sel hknown
    have hbind : Yields (Known M start [] (⟨lo, M.word start.state lo⟩ :: facts) none)
        (do let hi ← m; pure [some lo, some hi]) (fun regs sel => ∃ facts' leaves,
          facts ⊆ facts' ∧ Known M start [] facts' none sel ∧
          (pure [.whole (M.read start.state lo), .word (w (M.word start.state lo))] :
            Except String (List Leaf)) = .ok leaves ∧
          List.Forall₂ (Carries start facts') regs leaves) :=
      (hm _ facts).bind fun hi => .pure fun sel hk =>
        ⟨_, _, List.subset_cons_of_subset _ (List.subset_cons_self _ _), hk, rfl,
          .cons ⟨h, rfl⟩ (.cons List.mem_cons_self .nil)⟩
    rw [bind_assoc]
    exact hbind.ensures sel (hknown.old h)
  rw [Lowering.materializePair]
  cases hty : integerWidthAndSignedness ty with
  | none =>
    have hsigned : isSigned ty = false := by rw [isSigned, hty]
    rw [hsigned]
    exact hpair (w := fun _ => 0) fun x facts => yields_emitConstant
  | some widthSigned =>
    obtain ⟨width, signed⟩ := widthSigned
    have hsigned : isSigned ty = signed := by rw [isSigned, hty]
    rw [hsigned]
    cases signed
    · exact hpair (w := fun _ => 0) fun x facts => yields_emitConstant
    · exact hpair (w := fun x => mask x.msb) fun x facts => hext

include hwords

theorem flattensTo_flattenScalar {value : LoweredValue T.Register} {ty : Ty}
    (h : OldRegisters start value) (hagg : isAggregateTy ty = false) :
    FlattensTo start (L.flattenScalar value ty) (pure (scalarLeaves M start.state value ty)) := by
  rw [Lowering.flattenScalar.eq_def, scalarLeaves.eq_def]
  cases h128 : is128BitInteger ty with
  | true =>
    have hother := (Lowering.keepsPair_materializePair hwords hext value ty h).flattensTo
    cases value with
    | undef =>
      exact fun facts => Ensures.pure fun _ hk => ⟨facts, _, List.Subset.refl _, hk, rfl,
        .cons trivial (.cons trivial .nil)⟩
    | regPair lo hi =>
      show FlattensTo start (do
        let pair ← L.materializePair (.regPair lo hi) ty
        pure [some pair.1, some pair.2]) (pure [.whole (M.read _ lo), .whole (M.read _ hi)])
      rw [Lowering.materializePair]
      exact fun facts => Ensures.pure fun _ hk => ⟨facts, _, List.Subset.refl _, hk, rfl,
        .cons ⟨h lo List.mem_cons_self, rfl⟩
          (.cons ⟨h hi (List.mem_cons_of_mem _ List.mem_cons_self), rfl⟩ .nil)⟩
    | reg lo => exact flattensTo_extended hext (h lo List.mem_cons_self)
    | _ => exact hother
  | false =>
    have hother := (Lowering.keeps_materializeTyped hwords hext value ty h).brings.flattensTo
    cases value with
    | undef =>
      exact fun facts => Ensures.pure fun _ hk => ⟨facts, _, List.Subset.refl _, hk, rfl,
        .cons trivial .nil⟩
    | reg r =>
      exact (brings_materializeTyped hwords (h r List.mem_cons_self) hagg h128).flattensTo
    | _ => exact hother

omit hwords hext in
theorem mem_takeD {α : Type} {x d : α} {n : Nat} {xs : List α} (h : x ∈ xs.takeD n d) :
    x ∈ xs ∨ x = d := by
  induction n generalizing xs with
  | zero => exact absurd h List.not_mem_nil
  | succ n ih =>
    rw [List.takeD_succ] at h
    rcases List.mem_cons.mp h with rfl | h
    · cases xs with
      | nil => exact .inr rfl
      | cons y ys => exact .inl List.mem_cons_self
    · exact (ih h).imp_left List.mem_of_mem_tail

omit hwords hext in
/-- The fields of an incoming value are made of it. -/
theorem oldRegisters_fields {value : LoweredValue T.Register} {ty : Ty} {count : Nat}
    {values : List (LoweredValue T.Register)} (h : OldRegisters start value)
    (hfields : L.incomingFields value ty count = .ok values) :
    ∀ v ∈ values, OldRegisters start v := by
  have hundef : OldRegisters start (.undef : LoweredValue T.Register) :=
    fun r hr => absurd hr List.not_mem_nil
  rw [Lowering.incomingFields] at hfields
  cases hadapt : L.adaptValueToType value ty with
  | error e =>
    rw [hadapt] at hfields
    cases hfields
  | ok value' =>
    rw [hadapt] at hfields
    have hmade := L.adaptValueToType_madeOf value ty hadapt
    have hvalues : fieldValues count value' = .ok values := hfields
    intro v hv
    cases value' with
    | undef =>
      cases hvalues
      rw [List.eq_of_mem_replicate hv]
      exact hundef
    | aggregate fields =>
      cases hvalues
      rcases mem_takeD hv with hmem | rfl
      · obtain ⟨field, hfield, rfl⟩ := List.mem_map.mp hmem
        cases field with
        | none => exact hundef
        | some v =>
          exact fun r hr =>
            h r (hmade.registers ((LoweredValue.MadeOf.field hfield).registers hr))
      · exact hundef
    | _ => cases hvalues

omit hwords hext in
theorem FlattensTo.each {α : Type} {f : α → Select T (List (Option T.Register))}
    {g : α → Except String (List Leaf)} {values : List α}
    (h : ∀ v ∈ values, FlattensTo start (f v) (g v)) :
    FlattensTo start (flattenEach f values) (leavesEach g values) := by
  induction values with
  | nil => exact FlattensTo.nil
  | cons v values ih =>
    exact (h v List.mem_cons_self).append (ih fun v hv => h v (List.mem_cons_of_mem _ hv))

/-- A scalar: nothing to flatten. -/
theorem flattensTo_scalar {value : LoweredValue T.Register} {ty : Ty}
    (h : OldRegisters start value) (hagg : isAggregateTy ty = false) :
    FlattensTo start (do let value ← ofExcept (L.adaptValueToType value ty); L.flattenScalar value ty)
      (do let value ← L.adaptValueToType value ty; pure (scalarLeaves M start.state value ty)) := by
  refine FlattensTo.ofExcept fun value' hvalue => flattensTo_flattenScalar hwords hext ?_ hagg
  exact fun r hr => h r ((L.adaptValueToType_madeOf value ty hvalue).registers hr)

set_option linter.unusedSectionVars false in
mutual

theorem flattensTo_flattenIncoming : ∀ (ty : Ty) (value : LoweredValue T.Register),
    OldRegisters start value →
    FlattensTo start (L.flattenIncoming ty value) (L.leaves M start.state ty value)
  | .unit, _, _ | .void, _, _ => FlattensTo.nil
  | .array elem size, value, h =>
    FlattensTo.ofExcept fun values hvalues => FlattensTo.each fun v hv =>
      flattensTo_flattenIncoming elem v (oldRegisters_fields h hvalues v hv)
  | .struct fields, value, h =>
    FlattensTo.ofExcept fun values hvalues =>
      flattensTo_flattenFields fields values (oldRegisters_fields h hvalues)
  | .opaqueStruct, value, _ => by
    intro facts sel _ regs sel' hrun
    cases hadapt : L.adaptValueToType value .opaqueStruct <;>
    · rw [Lowering.flattenIncoming, hadapt] at hrun
      cases hrun
  | .int _ _, _, h | .pointer, _, h | .fp32, _, h | .fp64, _, h | .vector _ _, _, h =>
    flattensTo_scalar hwords hext h rfl

theorem flattensTo_flattenFields : ∀ (tys : List Ty) (values : List (LoweredValue T.Register)),
    (∀ v ∈ values, OldRegisters start v) →
    FlattensTo start (L.flattenFields tys values) (L.fieldLeaves M start.state tys values)
  | ty :: tys, value :: values, h =>
    (flattensTo_flattenIncoming ty value (h value List.mem_cons_self)).append
      (flattensTo_flattenFields tys values fun v hv => h v (List.mem_cons_of_mem _ hv))
  | [], _, _ | _ :: _, [], _ => FlattensTo.nil

end

end Values

end Flatten

/-! ## The edge -/

/-- The registers of the block arguments of a destination, in order. -/
def destRegisters {R : Type} (values : Value → Option (LoweredValue R)) :
    List Value → Option (List R)
  | [] => some []
  | destArg :: destArgs => do
    let dest ← values destArg
    let first ← blockArgRegisters dest
    let rest ← destRegisters values destArgs
    pure (first ++ rest)

/-- The leaves of the operands of a branch, in order; each has the type of the
    block argument it is for. -/
def Lowering.incomingLeaves (L : Lowering T) (M : Machine T) (s : M.State)
    (values : Value → Option (LoweredValue T.Register)) :
    List (Value × Value) → Except String (List Leaf)
  | [] => pure []
  | (arg, destArg) :: args =>
    match values arg with
    | none => throw "undefined value"
    | some src => do
      let first ← L.leaves M s destArg.ty src
      let rest ← incomingLeaves L M s values args
      pure (first ++ rest)

/-- What a destination holds after the edge, as far as a register can hold it. -/
def Leaf.ArrivesIn (leaf : Leaf) (M : Machine T) (fit : T.Register → BitVec 128 → BitVec 128)
    (s : M.State) (d : T.Register) : Prop :=
  match leaf with
  | .undef => M.read s d = 0
  | .whole x => M.read s d = fit d x
  | .word w => M.word s d = (fit d (w.setWidth 128)).setWidth 64
  | .other => True

mutual

theorem blockArgRegisters_subset {R : Type} : ∀ (value : LoweredValue R) {regs : List R},
    blockArgRegisters value = some regs → regs ⊆ value.registers
  | .reg _, _, h | .regPair _ _, _, h | .undef, _, h => by
    cases h
    exact List.Subset.refl _
  | .aggregate fields, _, h => blockArgFieldsRegisters_subset fields h

theorem blockArgFieldsRegisters_subset {R : Type} : ∀ (fields : List (Option (LoweredValue R)))
    {regs : List R}, blockArgFieldsRegisters fields = some regs →
      regs ⊆ LoweredValue.fieldsRegisters fields
  | [], _, h => by
    cases h
    exact List.Subset.refl _
  | none :: fields, _, h => blockArgFieldsRegisters_subset fields h
  | some field :: fields, _, h => by
    obtain ⟨first, hfirst, h⟩ := Option.bind_eq_some_iff.mp h
    obtain ⟨rest, hrest, h⟩ := Option.bind_eq_some_iff.mp h
    cases h
    exact List.append_subset.mpr
      ⟨List.subset_append_of_subset_left _ (blockArgRegisters_subset field hfirst),
        List.subset_append_of_subset_right _ (blockArgFieldsRegisters_subset fields hrest)⟩

end

/-- Copies that would keep a register as it is are left out. -/
def neededCopies {R : Type} [DecidableEq R] (dsts : List R) (srcs : List (Option R)) :
    List (Copy R) :=
  (dsts.zip srcs).filter fun copy => decide (copy.2 ≠ some copy.1)

/-- The copies of an edge, from the state before it. -/
structure Gathered (L : Lowering T) (start : Start M)
    (values : Value → Option (LoweredValue T.Register)) (args : List (Value × Value))
    (facts : List (Fact T)) (pending : List (Copy T.Register)) (dsts : List T.Register)
    (srcs : List (Option T.Register)) (leaves : List Leaf) : Prop where
  dests : destRegisters values (args.map Prod.snd) = some dsts
  incoming : L.incomingLeaves M start.state values args = .ok leaves
  length_eq : dsts.length = srcs.length
  carries : List.Forall₂ (Carries start facts) srcs leaves
  pending_eq : pending = neededCopies dsts srcs
  dests_old : ∀ d ∈ dsts, ¬FreshFrom T start.next d

section Edge

variable {start : Start M} {L : Lowering T} (hwords : ∀ op, op ≠ .asr → M.has op)
  (hext : L.SignExtends M) {values : Value → Option (LoweredValue T.Register)}

theorem neededCopies_append {R : Type} [DecidableEq R] {dsts dsts' : List R}
    {srcs srcs' : List (Option R)} (h : dsts.length = srcs.length) :
    neededCopies (dsts ++ dsts') (srcs ++ srcs') =
      neededCopies dsts srcs ++ neededCopies dsts' srcs' := by
  rw [neededCopies, List.zip_append h, List.filter_append]
  rfl

/-- One more block argument. -/
theorem Gathered.cons {args : List (Value × Value)} {arg destArg : Value}
    {src dest : LoweredValue T.Register} {facts facts' : List (Fact T)}
    {first rest : List (Copy T.Register)} {dsts dsts' : List T.Register}
    {srcs srcs' : List (Option T.Register)} {leaves leaves' : List Leaf}
    (hsrc : values arg = some src) (hdest : values destArg = some dest)
    (hdsts : blockArgRegisters dest = some dsts)
    (hleaves : L.leaves M start.state destArg.ty src = .ok leaves)
    (hlength : dsts.length = srcs.length) (hcarries : List.Forall₂ (Carries start facts) srcs leaves)
    (hfirst : first = neededCopies dsts srcs) (hold : ∀ d ∈ dsts, ¬FreshFrom T start.next d)
    (hsub : facts ⊆ facts') (h : Gathered L start values args facts' rest dsts' srcs' leaves') :
    Gathered L start values ((arg, destArg) :: args) facts' (first ++ rest) (dsts ++ dsts')
      (srcs ++ srcs') (leaves ++ leaves') where
  dests := by
    rw [List.map_cons, destRegisters, hdest, h.dests, Option.bind_eq_bind, Option.bind_some, hdsts]
    rfl
  incoming := by
    rw [Lowering.incomingLeaves, hsrc, h.incoming]
    show (L.leaves M start.state destArg.ty src >>= fun first => _) = _
    rw [hleaves]
    rfl
  length_eq := by rw [List.length_append, List.length_append, hlength, h.length_eq]
  carries := List.rel_append (hcarries.imp fun _ _ hc => hc.mono hsub) h.carries
  pending_eq := by rw [hfirst, h.pending_eq, neededCopies_append hlength]
  dests_old d hd := (List.mem_append.mp hd).elim (hold d) (h.dests_old d)

include hwords hext

theorem ensures_argumentCopies {arg destArg : Value}
    (hold : ∀ v, (values arg = some v ∨ values destArg = some v) → OldRegisters start v)
    (facts : List (Fact T)) :
    Ensures (Known M start [] facts none) (L.argumentCopies values arg destArg) fun pending sel =>
      ∃ facts' dsts srcs leaves, facts ⊆ facts' ∧ Known M start [] facts' none sel ∧
        ∀ {args rest facts'' dsts' srcs' leaves'}, facts' ⊆ facts'' →
          Gathered L start values args facts'' rest dsts' srcs' leaves' →
          Gathered L start values ((arg, destArg) :: args) facts'' (pending ++ rest) (dsts ++ dsts')
            (srcs ++ srcs') (leaves ++ leaves') := by
  rw [Lowering.argumentCopies]
  cases hsrc : values arg with
  | none => exact Ensures.throw
  | some src =>
    cases hdest : values destArg with
    | none => exact Ensures.throw
    | some dest =>
      dsimp only
      cases hdsts : blockArgRegisters dest with
      | none => exact Ensures.throw
      | some dsts =>
        have hsrc' := hold src (.inl hsrc)
        have hdest' := hold dest (.inr hdest)
        refine (flattensTo_flattenIncoming hwords hext destArg.ty src hsrc' facts).bind ?_
        rintro srcs sel ⟨facts', leaves, hsub, hk, hleaves, hcarries⟩
        by_cases hlength : dsts.length = srcs.length
        · rw [if_neg (not_not.mpr hlength)]
          refine (Ensures.pure fun sel hk => ?_) sel hk
          exact ⟨facts', dsts, srcs, leaves, hsub, hk, fun hsub' h =>
            Gathered.cons hsrc hdest hdsts hleaves hlength hcarries rfl
              (fun d hd => hdest' d (blockArgRegisters_subset _ hdsts hd)) hsub' h⟩
        · rw [if_pos hlength]
          exact Ensures.throw sel hk

theorem gathered_pendingCopies (args : List (Value × Value))
    (hold : ∀ arg ∈ args, ∀ v, (values arg.1 = some v ∨ values arg.2 = some v) →
      OldRegisters start v) (facts : List (Fact T)) :
    Ensures (Known M start [] facts none) (L.pendingCopies values args) fun pending sel =>
      ∃ facts' dsts srcs leaves, facts ⊆ facts' ∧ Known M start [] facts' none sel ∧
        Gathered L start values args facts' pending dsts srcs leaves := by
  induction args generalizing facts with
  | nil =>
    exact Ensures.pure fun sel hk => ⟨facts, [], [], [], List.Subset.refl _, hk, rfl, rfl, rfl,
      .nil, rfl, fun _ h => absurd h List.not_mem_nil⟩
  | cons arg args ih =>
    obtain ⟨arg, destArg⟩ := arg
    refine (ensures_argumentCopies hwords hext (hold (arg, destArg) List.mem_cons_self) facts).bind
      fun first sel ⟨facts₁, dsts₁, srcs₁, leaves₁, hsub₁, hk₁, hcons⟩ => ?_
    refine ((ih (fun a ha => hold a (List.mem_cons_of_mem _ ha)) facts₁).bind
      fun rest sel ⟨facts₂, dsts₂, srcs₂, leaves₂, hsub₂, hk₂, h₂⟩ => ?_) sel hk₁
    refine (Ensures.pure fun sel hk => ?_) sel hk₂
    exact ⟨facts₂, dsts₁ ++ dsts₂, srcs₁ ++ srcs₂, leaves₁ ++ leaves₂,
      List.Subset.trans hsub₁ hsub₂, hk, hcons hsub₂ h₂⟩

end Edge

section Arrival

variable {C : Copies T} {fit : T.Register → BitVec 128 → BitVec 128}

/-- A destination that needs no copy is no destination of a copy. -/
theorem not_mem_neededCopies {R : Type} [DecidableEq R] {dsts : List R} {srcs : List (Option R)}
    {d : R} (hnodup : dsts.Nodup) (hlength : dsts.length = srcs.length)
    (h : (d, some d) ∈ dsts.zip srcs) : d ∉ (neededCopies dsts srcs).map Prod.fst := by
  intro hin
  obtain ⟨copy, hcopy, hd⟩ := List.mem_map.mp hin
  obtain ⟨hzip, hne⟩ := List.mem_filter.mp hcopy
  have hfst : ((dsts.zip srcs).map Prod.fst).Nodup := by
    rw [List.map_fst_zip (Nat.le_of_eq hlength)]
    exact hnodup
  have heq : copy = (d, some d) := List.inj_on_of_nodup_map hfst hzip h hd
  subst heq
  exact of_decide_eq_true hne rfl

/-- With the copies that are needed, every destination receives its source. -/
theorem read_of_assigns {dsts : List T.Register} {srcs : List (Option T.Register)}
    {old : T.Register → Prop} {mid s : M.State} (hfit : ∀ s r, fit r (M.read s r) = M.read s r)
    (hnodup : dsts.Nodup) (hlength : dsts.length = srcs.length) (hold : ∀ d ∈ dsts, old d)
    (h : Assigns fit 0 old (M.read mid) (M.read s) (neededCopies dsts srcs)) {d : T.Register}
    {src : Option T.Register} (hmem : (d, src) ∈ dsts.zip srcs) :
    M.read s d = received fit 0 (M.read mid) d src := by
  by_cases hself : src = some d
  · subst hself
    rw [h.kept d (hold d (List.of_mem_zip hmem).1) (not_mem_neededCopies hnodup hlength hmem),
      received, hfit]
  · have hcopy : (d, src) ∈ neededCopies dsts srcs :=
      List.mem_filter.mpr ⟨hmem, decide_eq_true hself⟩
    cases src with
    | none => exact h.cleared d hcopy
    | some r => exact h.copied d r hcopy

/-- What a leaf brings arrives. -/
theorem Carries.arrivesIn {start : Start M} {facts : List (Fact T)} {mid s : M.State}
    (hfit : ∀ r v, (fit r v).setWidth 64 = (fit r ((v.setWidth 64).setWidth 128)).setWidth 64)
    (hunchanged : ∀ r, ¬FreshFrom T start.next r → M.read mid r = M.read start.state r)
    (hholds : ∀ f ∈ facts, M.word mid f.reg = f.value) {d : T.Register} :
    ∀ {src : Option T.Register} {leaf : Leaf}, Carries start facts src leaf →
      M.read s d = received fit 0 (M.read mid) d src → leaf.ArrivesIn M fit s d
  | none, .undef, _, hread => hread
  | some r, .whole x, ⟨hr, hx⟩, hread => by
    show M.read s d = fit d x
    rw [hread, received, hunchanged r hr, hx]
  | some r, .word w, h, hread => by
    have hw : (M.read mid r).setWidth 64 = w := hholds _ h
    show (M.read s d).setWidth 64 = _
    rw [hread, received, hfit, hw]
  | some _, .other, _, _ => trivial

theorem forall₂_of_zip {α β γ : Type} {P : α → β → Prop} {Q : γ → β → Prop} {xs : List α}
    {ys : List β} (h : List.Forall₂ P xs ys) : ∀ {zs : List γ}, zs.length = xs.length →
    (∀ z x y, (z, x) ∈ zs.zip xs → P x y → Q z y) → List.Forall₂ Q zs ys := by
  induction h with
  | nil =>
    intro zs hlength _
    rw [List.eq_nil_of_length_eq_zero hlength]
    exact .nil
  | cons hxy _ ih =>
    intro zs hlength hq
    cases zs with
    | nil => cases hlength
    | cons z zs =>
      refine .cons (hq _ _ _ List.mem_cons_self hxy) (ih (Nat.succ.inj hlength) ?_)
      exact fun z x y hmem => hq z x y (List.mem_cons_of_mem _ hmem)

theorem exists_of_forall₂ {α β : Type} {P : α → β → Prop} {xs : List α} {ys : List β}
    (h : List.Forall₂ P xs ys) {x : α} (hx : x ∈ xs) : ∃ y, P x y := by
  induction h with
  | nil => exact absurd hx List.not_mem_nil
  | @cons x' y _ _ hxy _ ih =>
    rcases List.mem_cons.mp hx with rfl | hx
    · exact ⟨y, hxy⟩
    · exact ih hx

/-- The register of a leaf has been allocated. -/
theorem Carries.not_fresh {start : Start M} {facts : List (Fact T)} {next : Nat}
    (hle : start.next ≤ next) (hallocated : ∀ f ∈ facts, ¬FreshFrom T next f.reg)
    {r : T.Register} : ∀ {leaf : Leaf}, Carries start facts (some r) leaf → ¬FreshFrom T next r
  | .whole _, h => fun hf => h.1 (hf.mono hle)
  | .word _, h => hallocated _ h
  | .other, ⟨_, h⟩ => hallocated _ h

theorem mem_zip_of_needed {R : Type} [DecidableEq R] {dsts : List R} {srcs : List (Option R)}
    {copy : Copy R} (h : copy ∈ neededCopies dsts srcs) : copy.1 ∈ dsts ∧ copy.2 ∈ srcs :=
  List.of_mem_zip (List.mem_filter.mp h).1

/-- The code of an edge: the leaves arrive in the destinations, and no other
    register that was there before has changed. -/
theorem emitBlockArgCopies_sound {L : Lowering T} (hwords : ∀ op, op ≠ .asr → M.has op)
    (hext : L.SignExtends M) (hC : C.Laws M fit)
    {values : Value → Option (LoweredValue T.Register)} {destArgs args : List Value}
    {dsts : List T.Register} {sel sel' : Selection T} (s : M.State)
    (hold : ∀ arg ∈ args ++ destArgs, ∀ v, values arg = some v → ∀ r ∈ v.registers,
      ¬FreshFrom T sel.next r)
    (hdsts : destRegisters values destArgs = some dsts) (hnodup : dsts.Nodup)
    (h : L.emitBlockArgCopies C values destArgs args sel = .ok ((), sel')) :
    ∃ code s' leaves, sel'.code = sel.code ++ code ∧ M.run code s = some s' ∧
      L.incomingLeaves M s values (args.zip destArgs) = .ok leaves ∧
      List.Forall₂ (fun d leaf => leaf.ArrivesIn M fit s' d) dsts leaves ∧
      ∀ r, ¬FreshFrom T sel.next r → r ∉ dsts → M.read s' r = M.read s r := by
  rw [Lowering.emitBlockArgCopies] at h
  by_cases hlength : destArgs.length = args.length
  case neg =>
    rw [if_pos hlength] at h
    cases h
  rw [if_neg (not_not.mpr hlength)] at h
  have hargs : (args.zip destArgs).map Prod.snd = destArgs :=
    List.map_snd_zip (Nat.le_of_eq hlength)
  have hvalues : ∀ arg ∈ args.zip destArgs, ∀ v, (values arg.1 = some v ∨ values arg.2 = some v) →
      OldRegisters (⟨sel.code, sel.next, s⟩ : Start M) v := by
    rintro ⟨arg, destArg⟩ hmem v (hv | hv)
    · exact hold arg (List.mem_append_left _ (List.of_mem_zip hmem).1) v hv
    · exact hold destArg (List.mem_append_right _ (List.of_mem_zip hmem).2) v hv
  -- The incoming values, then the copies.
  have hrun : (L.pendingCopies values (args.zip destArgs) sel >>= fun p => C.emitCopies p.1 p.2) =
      .ok ((), sel') := h
  cases hpending : L.pendingCopies values (args.zip destArgs) sel with
  | error e =>
    rw [hpending] at hrun
    cases hrun
  | ok result =>
    obtain ⟨pending, sel₁⟩ := result
    rw [hpending] at hrun
    have hcopies : C.emitCopies pending sel₁ = .ok ((), sel') := hrun
    have hstart : Known M ⟨sel.code, sel.next, s⟩ [] [] none sel :=
      ⟨Nat.le_refl _, ⟨[], s, (List.append_nil _).symm, rfl, fun _ _ => rfl,
        fun _ hf => absurd hf List.not_mem_nil, fun _ _ hn => nomatch hn⟩,
        fun _ hf => absurd hf List.not_mem_nil, fun _ hd => absurd hd List.not_mem_nil,
        fun _ hd => absurd hd List.not_mem_nil, fun _ hd => absurd hd List.not_mem_nil,
        List.nodup_nil⟩
    obtain ⟨facts, dsts', srcs, leaves, -, hknown, hgathered⟩ :=
      gathered_pendingCopies hwords hext _ hvalues [] sel hstart pending sel₁ hpending
    have hdsts' : dsts' = dsts := by
      have heq := hgathered.dests
      rw [hargs, hdsts] at heq
      exact (Option.some.inj heq).symm
    subst hdsts'
    obtain ⟨code, mid, hcode, hreach⟩ := hknown.reaches
    have hdestsOld : ∀ d ∈ dsts', ¬FreshFrom T sel₁.next d :=
      fun d hd hf => hgathered.dests_old d hd (hf.mono hknown.next_le)
    have holdCopies : OldCopies T sel₁.next pending := by
      intro copy hcopy
      rw [hgathered.pending_eq] at hcopy
      obtain ⟨hdst, hsrc⟩ := mem_zip_of_needed hcopy
      refine ⟨hdestsOld _ hdst, fun r hr => ?_⟩
      obtain ⟨leaf, hleaf⟩ := exists_of_forall₂ hgathered.carries hsrc
      rw [hr] at hleaf
      exact hleaf.not_fresh hknown.next_le hknown.allocated
    have hnodup' : (pending.map Prod.fst).Nodup := by
      rw [hgathered.pending_eq]
      refine List.Nodup.sublist (List.filter_sublist.map Prod.fst) ?_
      rw [List.map_fst_zip (Nat.le_of_eq hgathered.length_eq)]
      exact hnodup
    obtain ⟨code', s', hcode', hrun', hassigns⟩ :=
      emitCopies_assigns hC holdCopies hnodup' hcopies mid
    rw [hgathered.pending_eq] at hassigns
    refine ⟨code ++ code', s', leaves, ?_, run_append hreach.runs hrun', hgathered.incoming, ?_,
      fun r hr hne => ?_⟩
    · rw [hcode', hcode, List.append_assoc]
    · refine forall₂_of_zip hgathered.carries hgathered.length_eq fun d src leaf hmem hcarries => ?_
      refine hcarries.arrivesIn hC.fit_word hreach.unchanged hreach.holds ?_
      exact read_of_assigns hC.fit_read hnodup hgathered.length_eq hdestsOld hassigns hmem
    · have hne' : r ∉ (neededCopies dsts' srcs).map Prod.fst := by
        intro hin
        obtain ⟨copy, hcopy, rfl⟩ := List.mem_map.mp hin
        exact hne (mem_zip_of_needed hcopy).1
      have hr' : ¬FreshFrom T sel₁.next r := fun hf => hr (hf.mono hknown.next_le)
      rw [hassigns.kept r hr' hne', hreach.unchanged r hr]

end Arrival

end Crabbit.Isel
