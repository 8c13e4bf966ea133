/-
  Crabbit.Isel.MaterializeSound

  Bringing a value into registers writes fresh registers only.

  The functions that materialize call each other, so the frame is proved for all
  of them at once, by the measure they terminate by.  What the register of the
  result holds is said for the values that are in registers already.
-/

import Crabbit.Isel.I128Sound

namespace Crabbit.Isel

open Crabbit.Llvm (ICmpPredicate Ty)

variable {T : Target} {M : Machine T} {start : Start M} {facts : List (Fact T)}
  {reserved : List (Slot T)} {compared : Option (BitVec 64 × BitVec 64)}

/-! ## Moves between the files -/

section Files

variable {F : FpFile T.Register T.Inst} (hF : T.fp = some F) {kind : FpKind} {d r : T.Register}
  {x : BitVec 64}

include hF

theorem yields_freshFpr : Yields (Known M start reserved facts compared) (Lowering.freshFpr F kind)
    (fun d => Known M start (⟨d, some kind⟩ :: reserved) facts compared) :=
  fun sel h => ⟨_, _, rfl, h.reserve ⟨F, hF, sel.next, rfl⟩ (.inr ⟨F, hF, .inr ⟨kind, rfl⟩⟩)⟩

theorem Known.fpr_virtual {sel : Selection T}
    (h : Known M start (⟨d, some kind⟩ :: reserved) facts compared sel) :
    ∃ i, d = F.virtualFpr kind i := by
  obtain ⟨F', hF', i, hi⟩ := h.reserved_virtual ⟨d, some kind⟩ List.mem_cons_self
  have heq : F' = F := Option.some.inj (hF'.symm.trans hF)
  exact ⟨i, heq ▸ hi⟩

theorem yields_toGpr [hr : Knows facts r x] :
    Yields (Known M start (gprSlot d :: reserved) facts compared) (emit (F.toGpr kind d r))
      (fun _ => Known M start reserved (⟨d, x⟩ :: facts) none) := by
  intro sel h
  obtain ⟨i, rfl⟩ := h.gpr_virtual
  refine Yields.write (fun s hs _ => ?_) sel h
  obtain ⟨s', hrun, hread⟩ := (M.fpLaws F hF).toGpr kind i r s
  have hx : M.word s r = x := hs _ hr.mem
  beta_reduce at hread
  rw [M.word_eq hx] at hread
  exact ⟨s', hrun, hread, fun _ _ h => nomatch h⟩

theorem yields_toFpr [hr : Knows facts r x] :
    Yields (Known M start (⟨d, some kind⟩ :: reserved) facts compared) (emit (F.toFpr kind d r))
      (fun _ => Known M start reserved (⟨d, kind.keep x⟩ :: facts) none) := by
  intro sel h
  obtain ⟨i, rfl⟩ := h.fpr_virtual hF
  refine Yields.write (fun s hs _ => ?_) sel h
  obtain ⟨s', hrun, hread⟩ := (M.fpLaws F hF).toFpr kind i r s
  have hx : M.word s r = x := hs _ hr.mem
  beta_reduce at hread
  rw [M.word_eq hx] at hread
  exact ⟨s', hrun, hread, fun _ _ h => nomatch h⟩

end Files

/-! ## Narrow integers -/

/-- The word that `normalize_integer_reg` leaves. -/
def normalizeWord (ty : Ty) (x : BitVec 64) : BitVec 64 :=
  match integerWidthAndSignedness ty with
  | none => x
  | some (width, signed) =>
    if 64 ≤ width then x
    else if signed then
      (x &&& BitVec.ofNat 64 (2 ^ width - 1) ^^^ BitVec.ofNat 64 (2 ^ (width - 1))) -
        BitVec.ofNat 64 (2 ^ (width - 1))
    else x &&& BitVec.ofNat 64 (2 ^ width - 1)

theorem yields_normalizeIntegerReg (hwords : ∀ op, op ≠ .asr → M.has op) {r : T.Register}
    {x : BitVec 64} [Knows facts r x] (ty : Ty) :
    Yields (Known M start [] facts compared) (Lowering.normalizeIntegerReg r ty)
      (fun d => Known M start [] (⟨d, normalizeWord ty x⟩ :: facts) none) := by
  unfold Lowering.normalizeIntegerReg normalizeWord
  cases integerWidthAndSignedness ty with
  | none => exact yields_existing
  | some widthSigned =>
    obtain ⟨width, signed⟩ := widthSigned
    by_cases hwidth : 64 ≤ width
    · simp only [if_pos hwidth]
      exact yields_existing
    · simp only [if_neg hwidth]
      refine yields_emitConstant.bind fun mask => (yields_emitBinary (hwords _ (by decide))).bind
        fun masked => ?_
      cases signed
      · exact Yields.pure fun sel h => h.one
      · refine yields_emitConstant.bind fun signBit => (yields_emitBinary (hwords _ (by decide))).bind
          fun flipped => (yields_emitBinary (hwords _ (by decide))).weaken fun d sel h => ?_
        exact h.one

/-! ## The frame -/

/-- If the selection succeeds, the register of its result holds some word, and
    what was known still holds. -/
def Keeps (start : Start M) (m : Select T T.Register) : Prop :=
  ∀ facts, Ensures (Known M start [] facts none) m fun r sel =>
    ∃ v, Known M start [] (⟨r, v⟩ :: facts) none sel

/-- The same of a pair. -/
def KeepsPair (start : Start M) (m : Select T (Pair T)) : Prop :=
  ∀ facts, Ensures (Known M start [] facts none) m fun pair sel =>
    ∃ lo hi, Known M start [] (⟨pair.1, lo⟩ :: ⟨pair.2, hi⟩ :: facts) none sel

/-- None of the registers of a value is fresh. -/
def OldRegisters (start : Start M) (value : LoweredValue T.Register) : Prop :=
  ∀ r ∈ value.registers, ¬FreshFrom T start.next r

section Frame

theorem Keeps.of_yields {m : Select T T.Register} {v : BitVec 64}
    {compared' : Option (BitVec 64 × BitVec 64)}
    (h : ∀ facts, Yields (Known M start [] facts none) m
      fun r => Known M start [] (⟨r, v⟩ :: facts) compared') : Keeps start m := by
  intro facts
  exact (h facts).ensures.weaken fun r sel hknown => ⟨v, hknown.forget (List.Subset.refl _)⟩

theorem Keeps.throw (e : String) : Keeps start (MonadExcept.throw e) := fun _ => Ensures.throw

theorem keeps_existing {r : T.Register} (hr : ¬FreshFrom T start.next r) :
    Keeps start (Pure.pure r) :=
  fun _ => Ensures.pure fun _ h => h.observe fun hfresh => hr (hfresh.mono h.next_le)

theorem ensures_emitInto {inst : T.Register → T.Inst}
    (h : ∀ d : Nat, Writes M.step M.read [inst (T.virtualGpr d)] (T.virtualGpr d)) :
    Ensures (Known M start reserved facts compared) (Lowering.emitInto inst) fun r sel =>
      ∃ v, Known M start reserved (⟨r, v⟩ :: facts) none sel := by
  refine yields_freshVreg.ensures.bind fun d sel hknown => ?_
  obtain ⟨i, rfl⟩ := hknown.gpr_virtual
  rintro r sel' hrun
  cases hrun
  exact hknown.writes (h i)

theorem keepsPair_of {lo hi : Select T T.Register} (hlo : Keeps start lo) (hhi : Keeps start hi) :
    KeepsPair start (do let lo ← lo; let hi ← hi; pure (lo, hi)) := by
  intro facts
  refine (hlo facts).bind fun l sel ⟨v, hl⟩ => ?_
  refine (hhi _).bind (fun h sel ⟨w, hh⟩ => ?_) sel hl
  refine Ensures.pure (fun sel hk => ⟨v, w, ?_⟩) sel hh
  exact hk.forget (List.Perm.swap _ _ facts).subset

theorem inFpFile_mem {F : FpFile T.Register T.Inst} {value : LoweredValue T.Register}
    {r : T.Register} {kind : FpKind} (h : Lowering.inFpFile F value = some (r, kind)) :
    r ∈ value.registers := by
  cases value with
  | reg r' =>
    obtain ⟨kind', -, heq⟩ := Option.map_eq_some_iff.mp h
    cases heq
    exact List.mem_cons_self
  | _ => cases h

theorem fileOf_fp {ty : Ty} {F : FpFile T.Register T.Inst} {kind : Option FpKind}
    (h : Lowering.fileOf T ty = some (F, kind)) : T.fp = some F := by
  obtain ⟨F', hF', heq⟩ := Option.bind_eq_some_iff.mp h
  split at heq
  · cases heq
    exact hF'
  · obtain ⟨kind', -, heq⟩ := Option.map_eq_some_iff.mp heq
    cases heq
    exact hF'

theorem keeps_materializeSimd {F : FpFile T.Register T.Inst} {value : LoweredValue T.Register}
    (h : OldRegisters start value) : Keeps start (Lowering.materializeSimd F value) := by
  cases value with
  | reg r =>
    rw [Lowering.materializeSimd]
    split
    · exact keeps_existing (h r List.mem_cons_self)
    · exact Keeps.throw _
  | _ => exact Keeps.throw _

theorem keeps_emitConstant (v : Nat) : Keeps start (emitConstant v) :=
  Keeps.of_yields fun _ => yields_emitConstant

theorem WritesWord.writes {I S R : Type} [DecidableEq R] {step : I → S → Option S}
    {read : S → R → BitVec 128} {code : List I} {d : R} {v : S → BitVec 64}
    (h : WritesWord step read code d v) : Writes step read code d := fun s =>
  (h s).imp fun _ hs => ⟨v s, hs⟩

theorem keeps_emitFpr {F : FpFile T.Register T.Inst} (hF : T.fp = some F) {kind : FpKind}
    {d : T.Register} {inst : T.Inst}
    (h : ∀ i : Nat, d = F.virtualFpr kind i → Writes M.step M.read [inst] d) :
    Ensures (Known M start [⟨d, some kind⟩] facts compared)
      (do emit inst; pure d) fun r sel => ∃ v, Known M start [] (⟨r, v⟩ :: facts) none sel := by
  rintro sel hknown r sel' hrun
  obtain ⟨i, hi⟩ := hknown.fpr_virtual hF
  cases hrun
  exact hknown.writes (h i hi)

theorem keeps_materializeFpConstant {F : FpFile T.Register T.Inst} (hF : T.fp = some F)
    (bits : Nat) (kind : FpKind) : Keeps start (Lowering.materializeFpConstant F bits kind) := by
  have hlaws := M.fpLaws F hF
  intro facts
  refine (yields_freshFpr hF).ensures.bind fun dst => ?_
  cases himm : F.fmovImm kind bits with
  | some inst =>
    refine keeps_emitFpr hF fun i hi => ?_
    rw [hi]
    exact hlaws.fmovImm himm i
  | none =>
    show Ensures _ (if Lowering.nonzeroChunks bits ≤ 1 then _ else _) _
    split
    · refine yields_emitConstant.ensures.bind fun gpr => ?_
      refine (keeps_emitFpr hF fun i hi => ?_).weaken fun r sel ⟨v, hv⟩ =>
        ⟨v, hv.forget (List.cons_subset_cons _ (List.subset_cons_self _ _))⟩
      rw [hi]
      exact (hlaws.toFpr kind i gpr).writes
    · refine (ensures_emitInto fun d => M.adrLiteral d _ _).bind fun addr sel ⟨v, hknown⟩ => ?_
      refine (keeps_emitFpr hF fun i hi => ?_).weaken (fun r sel ⟨w, hw⟩ =>
        ⟨w, hw.forget (List.cons_subset_cons _ (List.subset_cons_self _ _))⟩) sel hknown
      rw [hi]
      exact hlaws.load kind i addr

section Values

variable {L : Lowering T} (hwords : ∀ op, op ≠ .asr → M.has op) (hext : L.SignExtends M)

include hwords hext

namespace Lowering

-- The hypotheses of the section are those of the whole block.
set_option linter.unusedSectionVars false in
mutual

theorem keeps_materialize : ∀ value : LoweredValue T.Register, OldRegisters start value →
    Keeps start (L.materialize value)
  | .reg r, h => by
    rw [materialize]
    split
    · next inst hinst =>
      obtain ⟨F, hF, hkind⟩ := Option.bind_eq_some_iff.mp hinst
      obtain ⟨kind, -, rfl⟩ := Option.map_eq_some_iff.mp hkind
      exact fun facts => ensures_emitInto fun d => ((M.fpLaws F hF).toGpr kind d r).writes
    · exact keeps_existing (h r List.mem_cons_self)
  | .regPair lo hi, h => by
    rw [materialize]
    exact keeps_existing (h lo List.mem_cons_self)
  | .imm imm, _ => by
    rw [materialize]
    exact keeps_emitConstant _
  | .cstr label bytes, _ => by
    rw [materialize]
    exact fun facts => ensures_emitInto fun d => M.adrLiteral d label bytes
  | .stackAddr offset, _ => by
    rw [materialize]
    exact fun facts => ensures_emitInto fun d => M.addSpOffset d offset
  | .address base offset, h => by
    rw [materialize]
    split
    · exact keeps_existing (h base List.mem_cons_self)
    · intro facts sel hknown
      obtain ⟨v, hbase⟩ := hknown.observe fun hfresh =>
        h base List.mem_cons_self (hfresh.mono hknown.next_le)
      have hadd : Yields (Known M start [] (⟨base, v⟩ :: facts) none)
          (do let offsetReg ← emitConstant offset; emitBinary .add base offsetReg)
          (fun d sel => ∃ w, Known M start [] (⟨d, w⟩ :: facts) none sel) :=
        yields_emitConstant.bind fun offsetReg =>
          (yields_emitBinary (hwords .add (by decide))).weaken fun d sel h => ⟨_, h.one⟩
      exact hadd.ensures sel hbase
  | .aggregate [some field], h => by
    rw [materialize]
    exact keeps_materialize field fun r hr => h r (List.mem_append_left _ hr)
  | .aggregate [none], _ => by
    rw [materialize]
    exact Keeps.throw _
  | .aggregate [], _ => by
    rw [materialize]
    · exact Keeps.throw _
    all_goals simp
  | .aggregate (_ :: _ :: _), _ => by
    rw [materialize]
    · exact Keeps.throw _
    all_goals simp
  | .compare predicate lhsTy lhs rhsTy rhs, h => by
    rw [materialize]
    exact keeps_lowerCompareValue predicate lhsTy lhs rhsTy rhs
      (fun r hr => h r (List.mem_append_left _ hr)) fun r hr => h r (List.mem_append_right _ hr)
  | .taggedLen len, _ => by
    rw [materialize]
    exact keeps_emitConstant _
  | .undef, _ => by
    rw [materialize]
    exact keeps_emitConstant _
termination_by value => (value.depth, 0, sizeOf value)
decreasing_by
  · exact lex_of_size (LoweredValue.MadeOf.field List.mem_cons_self).depth
      (LoweredValue.sizeOf_field List.mem_cons_self)
  · exact lex_of_depth (Nat.lt_succ_self _)

theorem keeps_lowerCompareValue (predicate : ICmpPredicate) (lhsTy : Ty)
    (lhs : LoweredValue T.Register) (rhsTy : Ty) (rhs : LoweredValue T.Register)
    (hl : OldRegisters start lhs) (hr : OldRegisters start rhs) :
    Keeps start (L.lowerCompareValue predicate lhsTy lhs rhsTy rhs) := by
  rw [lowerCompareValue]
  split
  · intro facts
    refine (keepsPair_materializePair lhs lhsTy hl facts).bind fun l sel ⟨ll, lh, hl'⟩ => ?_
    refine (keepsPair_materializePair rhs rhsTy hr _).bind
      (fun r sel ⟨rl, rh, hr'⟩ => ?_) sel hl'
    exact ((yields_compareHalves predicate (hwords _ (by decide))
      (hwords _ (by decide))).weaken fun d sel hd => ⟨_, hd.one⟩).ensures sel hr'
  · intro facts
    refine (keeps_materializeTyped lhs _ hl facts).bind fun l sel ⟨lw, hl'⟩ => ?_
    refine (keeps_materializeTyped rhs _ hr _).bind (fun r sel ⟨rw, hr'⟩ => ?_) sel hl'
    exact (yields_emitCompareBit.weaken fun d sel hd => ⟨_, hd.one⟩).ensures sel hr'
termination_by (max lhs.depth rhs.depth, 4, 0)
decreasing_by
  · exact lex_of_rank (Nat.le_max_left _ _) (by decide)
  · exact lex_of_rank (Nat.le_max_right _ _) (by decide)
  · exact lex_of_rank (Nat.le_max_left _ _) (by decide)
  · exact lex_of_rank (Nat.le_max_right _ _) (by decide)

theorem keepsPair_materializePair : ∀ (value : LoweredValue T.Register) (ty : Ty),
    OldRegisters start value → KeepsPair start (L.materializePair value ty)
  | .regPair lo hi, _, h => by
    rw [materializePair]
    exact keepsPair_of (keeps_existing (h lo List.mem_cons_self))
      (keeps_existing (h hi (List.mem_cons_of_mem _ List.mem_cons_self)))
  | .aggregate [none, _], _, _ => by
    rw [materializePair]
    exact fun _ => Ensures.throw
  | .aggregate [some _, none], _, _ => by
    rw [materializePair]
    exact fun _ => Ensures.throw
  | .aggregate [some lo, some hi], _, h => by
    rw [materializePair]
    exact keepsPair_of
      (keeps_materialize lo fun r hr => h r (List.mem_append_left _ hr))
      (keeps_materialize hi fun r hr =>
        h r (List.mem_append_right _ (List.mem_append_left _ hr)))
  | .imm imm, _, _ => by
    rw [materializePair]
    exact keepsPair_of (keeps_emitConstant _) (keeps_emitConstant _)
  | .reg lo, ty, h => by
    rw [materializePair]
    have hpair : ∀ {m : Select T T.Register} (w : BitVec 64 → BitVec 64), (∀ v facts,
        Yields (Known M start [] (⟨lo, v⟩ :: facts) none) m
          fun hi => Known M start [] (⟨hi, w v⟩ :: ⟨lo, v⟩ :: facts) none) →
        KeepsPair start (do let hi ← m; pure (lo, hi)) := by
      intro m w hm facts sel hknown
      obtain ⟨v, hlo⟩ := hknown.observe fun hfresh =>
        h lo List.mem_cons_self (hfresh.mono hknown.next_le)
      refine ((hm v facts).ensures.bind fun hi => Ensures.pure fun sel hk => ?_) sel hlo
      exact ⟨v, w v, hk.forget (List.Perm.swap _ _ facts).subset⟩
    split
    · exact hpair (fun v => mask v.msb) fun v facts => hext
    · exact hpair (fun _ => BitVec.ofNat 64 0) fun v facts => yields_emitConstant
  | .cstr _ _, _, h | .stackAddr _, _, h | .address _ _, _, h | .compare _ _ _ _ _, _, h
  | .taggedLen _, _, h | .undef, _, h | .aggregate [], _, h | .aggregate [_], _, h
  | .aggregate (_ :: _ :: _ :: _), _, h => by
    rw [materializePair]
    · exact keepsPair_of (keeps_materialize _ h) (keeps_emitConstant _)
    all_goals simp
termination_by value => (value.depth, 1, 0)
decreasing_by
  · exact lex_of_rank (LoweredValue.MadeOf.field List.mem_cons_self).depth (by decide)
  · exact lex_of_rank (LoweredValue.MadeOf.field (List.mem_cons_of_mem _ List.mem_cons_self)).depth
      (by decide)
  all_goals exact lex_of_rank (Nat.le_refl _) (by decide)

theorem keeps_materializeFp {F : FpFile T.Register T.Inst} (hF : T.fp = some F)
    (value : LoweredValue T.Register) (kind : FpKind) (h : OldRegisters start value) :
    Keeps start (L.materializeFp F value kind) := by
  rw [materializeFp.eq_def]
  split
  · next r kind' hfile =>
    split
    · exact keeps_existing (h r (inFpFile_mem hfile))
    · exact Keeps.throw _
  · split
    · exact keeps_materializeFpConstant hF _ kind
    · exact keeps_materializeFpConstant hF _ kind
    · intro facts
      refine (keeps_materialize value h facts).bind fun gpr sel ⟨v, hv⟩ => ?_
      refine ((yields_freshFpr hF).ensures.bind fun dst => ?_) sel hv
      refine (keeps_emitFpr hF fun i hi => ?_).weaken fun r sel ⟨w, hw⟩ =>
        ⟨w, hw.forget (List.cons_subset_cons _ (List.subset_cons_self _ _))⟩
      rw [hi]
      exact ((M.fpLaws F hF).toFpr kind i gpr).writes
termination_by (value.depth, 2, 0)
decreasing_by
  exact lex_of_rank (Nat.le_refl _) (by decide)

theorem keeps_materializeTyped (value : LoweredValue T.Register) (ty : Ty)
    (h : OldRegisters start value) : Keeps start (L.materializeTyped value ty) := by
  rw [materializeTyped]
  split
  · exact Keeps.throw _
  · next value' hvalue =>
    have hmade := L.adaptValueToType_madeOf _ _ hvalue
    have h' : OldRegisters start value' := fun r hr => h r (hmade.registers hr)
    split
    · exact Keeps.throw _
    split
    · intro facts
      refine (keepsPair_materializePair value' ty h' facts).bind fun pair sel ⟨lo, hi, hp⟩ => ?_
      exact (Ensures.pure fun sel hk => ⟨_, hk.one⟩) sel hp
    split
    · next F hfile => exact keeps_materializeSimd h'
    · next F kind hfile => exact keeps_materializeFp (fileOf_fp hfile) value' kind h'
    · intro facts
      refine (keeps_materialize value' h' facts).bind fun reg sel ⟨v, hv⟩ => ?_
      exact ((yields_normalizeIntegerReg hwords ty).weaken fun d sel hd => ⟨_, hd.one⟩).ensures sel hv
termination_by (value.depth, 3, 0)
decreasing_by
  all_goals exact lex_of_rank (L.adaptValueToType_madeOf _ _ ‹_›).depth (by decide)

end

end Lowering

end Values

end Frame

end Crabbit.Isel
