/-
  Crabbit.Nvptx.ReadonlySound

  When the read-only provenance of `readonly_values` is sound.

  Two requests of one memory (two `addressof` of one global, two bases of the
  dynamic shared window, a base and an `addressof` of the global that is the
  window) get two roots, and a write through one leaves the other clean: a load
  through the other is then held to be read-only.  Where no load and write are
  so related (`Isolated`), nothing a read-only load reads is written, by any
  thread.
-/

import Crabbit.Nvptx.Readonly
import Crabbit.Nvptx.Runs

namespace Crabbit.Nvptx

open Crabbit.Lib
open Crabbit.Llvm (Value Successor)

/-! ## Requests -/

/-- A value that introduces provenance, and the object it is an address of. -/
inductive Request (k : Kernel) : Value → Object → Prop where
  | param {v : Value} (h : v ∈ k.entry.params) (hkernel : k.paramsGlobal = true)
      (hptr : isPointer v.ty = true) : Request k v (.param v)
  | addressOf {v : Value} {name : String} (h : .addressOf v name ∈ k.insts) :
      Request k v (.global name)
  | alloca {v : Value} {operands : List Value} (h : .alloca v operands ∈ k.insts) :
      Request k v (.slot v)
  | dynShared {v : Value} {results : List Value} {callee : Option String} {operands : List Value}
      (h : .call results callee operands ∈ k.insts) (hv : v ∈ results)
      (hcallee : canonicalName callee = DYN_SHARED_INTRINSIC) : Request k v .dynShared

/-- A value may be derived from another, by pointer arithmetic, casts, selects
    and block arguments. -/
inductive Derives (k : Kernel) : Value → Value → Prop where
  | refl (r : Value) : Derives k r r
  | gep {v base r : Value} {ty : Llvm.Ty} {indices : List Llvm.GepIndex}
      (h : .gep v base ty indices ∈ k.insts) (hbase : Derives k base r) : Derives k v r
  | cast {v operand r : Value} {kind : CastKind} (h : .cast kind v operand ∈ k.insts)
      (hoperand : Derives k operand r) : Derives k v r
  | onTrue {v cond onTrue onFalse r : Value} (h : .select v cond onTrue onFalse ∈ k.insts)
      (harm : Derives k onTrue r) : Derives k v r
  | onFalse {v cond onTrue onFalse r : Value} (h : .select v cond onTrue onFalse ∈ k.insts)
      (harm : Derives k onFalse r) : Derives k v r
  | param {v arg r : Value} {inst : Inst} {target : Successor} (h : inst ∈ k.insts)
      (htarget : target ∈ inst.succs)
      (hzip : (arg, v) ∈ target.args.zip (k.block target.dest).params)
      (harg : Derives k arg r) : Derives k v r

/-- The results of an operation are requests, or addresses derived from its
    operands. -/
def Inst.tracked : Inst → Bool
  | .addressOf .. | .alloca .. | .gep .. | .cast .. | .select .. => true
  | .call _ callee _ => canonicalName callee = DYN_SHARED_INTRINSIC
  | _ => false

/-- A value that may be an address of anything. -/
inductive Untracked (k : Kernel) : Value → Prop where
  | param {v : Value} (h : v ∈ k.entry.params)
      (hother : ¬ (isPointer v.ty = true ∧ k.paramsGlobal = true)) : Untracked k v
  | result {v : Value} {inst : Inst} (h : inst ∈ k.insts) (hv : v ∈ inst.results)
      (huntracked : inst.tracked = false) : Untracked k v

/-- A value may be derived from one that may be an address of anything. -/
def Escapes (k : Kernel) (v : Value) : Prop := ∃ u, Untracked k u ∧ Derives k v u

/-! ## What the updates keep -/

/-- What an update may claim about the value it is about. -/
def ProvUpdate.Justified (k : Kernel) : ProvUpdate → Prop
  | .root result => ∃ o, Request k result o
  | .untracked _ => True
  | .aliasResult operand result => ∀ r, Derives k operand r → Derives k result r
  | .joinSelect onTrue onFalse result =>
      ∀ r, Derives k onTrue r ∨ Derives k onFalse r → Derives k result r
  | .joinParam arg param => ∀ r, Derives k arg r → Derives k param r

/-- The value the entry of which an update may change. -/
def ProvUpdate.target : ProvUpdate → Value
  | .root result | .untracked result => result
  | .aliasResult _ result | .joinSelect _ _ result => result
  | .joinParam _ param => param

/-- The bit of a root's id. -/
def ProvMap.HasId (m : ProvMap) (r : Value) (i : Nat) : Prop :=
  m.rootIds r = some (.roots (2 ^ i))

/-- The entry `p` of `v` names only roots there are, and roots `v` derives
    from. -/
structure ProvMap.Names (k : Kernel) (m : ProvMap) (v : Value) (p : Prov) : Prop where
  bits : ∀ mask i, p = .roots mask → mask.testBit i = true → i < m.nextRoot
  derived : ∀ mask r i, p = .roots mask → m.HasId r i → mask.testBit i = true → Derives k v r

/-- Ids are those of requests, one bit each; entries name roots they derive
    from; a request that has no id yet has no entry either. -/
structure ProvInv (k : Kernel) (m : ProvMap) : Prop where
  ids : ∀ r mask, m.rootIds r = some (.roots mask) → ∃ i, i < m.nextRoot ∧ mask = 2 ^ i
  unique : ∀ r r' i, m.HasId r i → m.HasId r' i → r = r'
  requests : ∀ r p, m.rootIds r = some p → ∃ o, Request k r o
  names : ∀ v p, m.prov v = some p → m.Names k v p
  pending : ∀ r, .root r ∈ provUpdates k → m.rootIds r = none → m.prov r = none

namespace ProvInv

variable {k : Kernel} {m : ProvMap}

theorem newRoot (h : ProvInv k m) {v : Value} {o : Object} (hv : Request k v o)
    (hnone : m.rootIds v = none) : ProvInv k (m.newRoot v) := by
  have hother : ∀ r, r ≠ v → (m.newRoot v).rootIds r = m.rootIds r := by
    intro r hr
    unfold ProvMap.newRoot
    split <;> exact Function.update_of_ne hr ..
  have hprov : (m.newRoot v).prov = m.prov := by
    unfold ProvMap.newRoot
    split <;> rfl
  have hnext : m.nextRoot ≤ (m.newRoot v).nextRoot := by
    unfold ProvMap.newRoot
    split
    · exact Nat.le_refl _
    · exact Nat.le_succ _
  -- The new id, if there is one, is a bit no mask has.
  have hself : ∀ mask, (m.newRoot v).rootIds v = some (.roots mask) →
      mask = 2 ^ m.nextRoot ∧ m.nextRoot < (m.newRoot v).nextRoot := by
    intro mask hmask
    unfold ProvMap.newRoot at hmask ⊢
    split at hmask
    · simp only [Function.update_self, Option.some.injEq, reduceCtorEq] at hmask
    · rename_i hlt
      simp only [Function.update_self, Option.some.injEq, Prov.roots.injEq] at hmask
      rw [if_neg hlt]
      exact ⟨hmask.symm, Nat.lt_succ_self _⟩
  have hid : ∀ r i, (m.newRoot v).HasId r i → (r = v ∧ i = m.nextRoot) ∨ (r ≠ v ∧ m.HasId r i) := by
    intro r i hr
    by_cases hrv : r = v
    · subst hrv
      exact .inl ⟨rfl, Nat.pow_right_injective (Nat.le_refl 2) (hself _ hr).1⟩
    · exact .inr ⟨hrv, (hother r hrv).symm.trans hr⟩
  have hfresh : ∀ r, ¬ m.HasId r m.nextRoot := by
    intro r hr
    obtain ⟨i, hlt, heq⟩ := h.ids r _ hr
    have := Nat.pow_right_injective (Nat.le_refl 2) heq
    omega
  constructor
  · intro r mask hmask
    by_cases hrv : r = v
    · subst hrv
      exact ⟨_, (hself mask hmask).2, (hself mask hmask).1⟩
    · obtain ⟨i, hlt, heq⟩ := h.ids r mask ((hother r hrv).symm.trans hmask)
      exact ⟨i, Nat.lt_of_lt_of_le hlt hnext, heq⟩
  · intro r r' i hr hr'
    rcases hid r i hr with ⟨rfl, rfl⟩ | ⟨-, hold⟩
    · rcases hid r' _ hr' with ⟨rfl, -⟩ | ⟨-, hr'⟩
      · rfl
      · exact absurd hr' (hfresh r')
    · rcases hid r' i hr' with ⟨-, rfl⟩ | ⟨-, hr'⟩
      · exact absurd hold (hfresh r)
      · exact h.unique r r' i hold hr'
  · intro r p hp
    by_cases hrv : r = v
    · subst hrv
      exact ⟨o, hv⟩
    · exact h.requests r p ((hother r hrv).symm.trans hp)
  · intro w p hp
    rw [hprov] at hp
    have hnames := h.names w p hp
    refine ⟨fun mask i hmask hi => Nat.lt_of_lt_of_le (hnames.bits mask i hmask hi) hnext, ?_⟩
    intro mask r i hmask hr hi
    rcases hid r i hr with ⟨rfl, rfl⟩ | ⟨-, hr⟩
    · exact absurd (hnames.bits mask _ hmask hi) (Nat.lt_irrefl _)
    · exact hnames.derived mask r i hmask hr hi
  · intro r hr hnone'
    rw [hprov]
    by_cases hrv : r = v
    · subst hrv
      exact h.pending r hr hnone
    · exact h.pending r hr ((hother r hrv).symm.trans hnone')

theorem rootOf (h : ProvInv k m) {v : Value} {o : Object} (hv : Request k v o) :
    ProvInv k (m.rootOf v) := by
  unfold ProvMap.rootOf
  split
  · exact h
  · rename_i hnone
    exact h.newRoot hv hnone

/-- The id of a root names it. -/
theorem names_root (h : ProvInv k m) {v : Value} {p : Prov} (hp : m.rootIds v = some p) :
    m.Names k v p := by
  obtain ⟨o, hv⟩ := h.requests v p hp
  constructor
  · rintro mask i rfl hi
    obtain ⟨j, hlt, rfl⟩ := h.ids v mask hp
    rw [Nat.testBit_two_pow, decide_eq_true_eq] at hi
    omega
  · rintro mask r i rfl hr hi
    obtain ⟨j, -, rfl⟩ := h.ids v mask hp
    rw [Nat.testBit_two_pow, decide_eq_true_eq] at hi
    subst hi
    rw [h.unique r v j hr hp]
    exact .refl v

theorem insert (h : ProvInv k m) {v : Value} {p : Prov} (hnames : m.Names k v p)
    (hpending : .root v ∈ provUpdates k → m.rootIds v ≠ none) : ProvInv k (m.insert v p) := by
  refine ⟨h.ids, h.unique, h.requests, fun w q hq => ?_, fun r hr hnone => ?_⟩
  · by_cases hwv : w = v
    · subst hwv
      rw [ProvMap.insert_self] at hq
      obtain rfl := Option.some.inj hq
      exact ⟨hnames.bits, hnames.derived⟩
    · rw [m.insert_of_ne hwv] at hq
      exact ⟨(h.names w q hq).bits, (h.names w q hq).derived⟩
  · by_cases hrv : r = v
    · subst hrv
      exact absurd hnone (hpending hr)
    · rw [m.insert_of_ne hrv]
      exact h.pending r hr hnone

end ProvInv

theorem ProvMap.names_unknown (k : Kernel) (m : ProvMap) (v : Value) : m.Names k v .unknown :=
  ⟨fun _ _ h _ => (by cases h), fun _ _ _ h _ _ => (by cases h)⟩

theorem ProvMap.Names.join {k : Kernel} {m : ProvMap} {v : Value} {p q : Prov}
    (hp : m.Names k v p) (hq : m.Names k v q) : m.Names k v (p.join q) := by
  cases p with
  | unknown => exact m.names_unknown k v
  | roots a =>
      cases q with
      | unknown => exact m.names_unknown k v
      | roots b =>
          constructor
          · rintro mask i ⟨⟩ hi
            rw [Nat.testBit_or, Bool.or_eq_true] at hi
            exact hi.elim (hp.bits a i rfl) (hq.bits b i rfl)
          · rintro mask r i ⟨⟩ hr hi
            rw [Nat.testBit_or, Bool.or_eq_true] at hi
            exact hi.elim (hp.derived a r i rfl hr) (hq.derived b r i rfl hr)

/-- What names one value names another that derives from all it does. -/
theorem ProvMap.Names.derive {k : Kernel} {m : ProvMap} {v w : Value} {p : Prov}
    (h : m.Names k v p) (hderive : ∀ r, Derives k v r → Derives k w r) : m.Names k w p :=
  ⟨h.bits, fun mask r i hmask hr hi => hderive r (h.derived mask r i hmask hr hi)⟩

theorem ProvInv.raiseProv {k : Kernel} {m : ProvMap} (h : ProvInv k m) {v : Value} {p : Prov}
    (hnames : m.Names k v p) (hpending : .root v ∈ provUpdates k → m.rootIds v ≠ none) :
    ProvInv k (m.raiseProv v p).1 := by
  unfold ProvMap.raiseProv
  split
  · exact h.insert hnames hpending
  · rename_i old hold
    split
    · exact h
    · exact h.insert ((h.names v old hold).join hnames) hpending

/-- The updates of a body are about different values, where one of them is a
    root; so says the verifier. -/
def RootsApart (k : Kernel) : Prop :=
  ∀ u ∈ provUpdates k, ∀ v, .root v ∈ provUpdates k → u.target = v → u = .root v

theorem ProvInv.apply {k : Kernel} {m : ProvMap} (h : ProvInv k m) (hapart : RootsApart k)
    {u : ProvUpdate} (hu : u ∈ provUpdates k) (hjust : u.Justified k) :
    ProvInv k (u.apply m).1 := by
  -- Only the update of the root itself is about a root.
  have hpending : (∀ v, u ≠ .root v) → .root u.target ∈ provUpdates k →
      m.rootIds u.target ≠ none := fun hne hroot =>
    absurd (hapart u hu _ hroot rfl) (hne _)
  have hraise : ∀ q, (∀ v, u ≠ .root v) → (∀ p, q = some p → m.Names k u.target p) →
      ProvInv k (m.raiseProv? u.target q).1 := by
    intro q hne hnames
    cases q with
    | none => exact h
    | some p => exact h.raiseProv (hnames p rfl) (hpending hne)
  cases u with
  | root result =>
      obtain ⟨o, hresult⟩ := hjust
      have hroot := h.rootOf hresult
      simp only [ProvUpdate.apply]
      cases hid : (m.rootOf result).rootIds result with
      | none => exact hroot
      | some p =>
          apply hroot.raiseProv (hroot.names_root hid)
          intro _ hnone
          rw [hid] at hnone
          cases hnone
  | untracked result =>
      exact hraise (some .unknown) (fun _ h => by cases h) fun p hp => by
        obtain rfl := Option.some.inj hp
        exact m.names_unknown k result
  | aliasResult operand result =>
      exact hraise _ (fun _ h => by cases h) fun p hp => (h.names operand p hp).derive hjust
  | joinSelect onTrue onFalse result =>
      refine hraise _ (fun _ h => by cases h) fun p hp => ?_
      have htrue : ∀ a, m.prov onTrue = some a → m.Names k result a := fun a ha =>
        (h.names onTrue a ha).derive fun r hr => hjust r (.inl hr)
      have hfalse : ∀ b, m.prov onFalse = some b → m.Names k result b := fun b hb =>
        (h.names onFalse b hb).derive fun r hr => hjust r (.inr hr)
      cases ha : m.prov onTrue with
      | none =>
          cases hb : m.prov onFalse with
          | none =>
              rw [ha, hb] at hp
              cases hp
          | some b =>
              rw [ha, hb] at hp
              obtain rfl := Option.some.inj hp
              exact hfalse _ hb
      | some a =>
          cases hb : m.prov onFalse with
          | none =>
              rw [ha, hb] at hp
              obtain rfl := Option.some.inj hp
              exact htrue _ ha
          | some b =>
              rw [ha, hb] at hp
              obtain rfl := Option.some.inj hp
              exact (htrue a ha).join (hfalse b hb)
  | joinParam arg param =>
      exact hraise _ (fun _ h => by cases h) fun p hp => (h.names arg p hp).derive hjust

theorem ProvUpdate.honest {k : Kernel} {u : ProvUpdate} (hu : u ∈ provUpdates k) :
    Honest (ProvInv k) fun m => u.apply m := by
  have hraise : ∀ (m : ProvMap) v q, (m.raiseProv? v q).2 = false → (m.raiseProv? v q).1 = m := by
    intro m v q h
    cases q with
    | none => rfl
    | some p =>
        simp only [ProvMap.raiseProv?, ProvMap.raiseProv] at h ⊢
        split at h
        · cases h
        · split at h
          · rename_i hjoin
            rw [if_pos hjoin]
          · cases h
  intro m hm hflag
  cases u with
  | root result =>
      have hflag : ((m.rootOf result).raiseProv? result
        ((m.rootOf result).rootIds result)).2 = false := hflag
      show ((m.rootOf result).raiseProv? result ((m.rootOf result).rootIds result)).1 = m
      cases hid : m.rootIds result with
      | some p =>
          have hsame : m.rootOf result = m := by rw [ProvMap.rootOf, hid]
          rw [hsame] at hflag ⊢
          exact hraise _ _ _ hflag
      | none =>
          -- A root without an id has no entry, and is given one.
          exfalso
          have hprov : (m.rootOf result).prov result = none := by
            rw [ProvMap.rootOf, hid]
            have hnone := hm.pending result hu hid
            simp only [ProvMap.newRoot]
            split <;> exact hnone
          have hsome : ∃ p, (m.rootOf result).rootIds result = some p := by
            rw [ProvMap.rootOf, hid]
            simp only [ProvMap.newRoot]
            split <;> exact ⟨_, Function.update_self ..⟩
          obtain ⟨p, hp⟩ := hsome
          simp only [hp, ProvMap.raiseProv?, ProvMap.raiseProv, hprov] at hflag
          cases hflag
  | untracked result => exact hraise m result (some .unknown) hflag
  | aliasResult operand result => exact hraise _ _ _ hflag
  | joinSelect onTrue onFalse result => exact hraise _ _ _ hflag
  | joinParam arg param => exact hraise _ _ _ hflag

/-! ## The fixpoint -/

/-- The entry of `v` is above `p`. -/
def ProvMap.Above (m : ProvMap) (v : Value) (p : Prov) : Prop :=
  ∃ old, m.prov v = some old ∧ old.join p = old

/-- What it says of a map that an update does not change it. -/
def ProvUpdate.Quiet (m : ProvMap) : ProvUpdate → Prop
  | .root result => ∃ p, m.rootIds result = some p ∧ m.Above result p
  | .untracked result => m.Above result .unknown
  | .aliasResult operand result => ∀ p, m.prov operand = some p → m.Above result p
  | .joinSelect onTrue onFalse result =>
      ∀ p, joinProvs (m.prov onTrue) (m.prov onFalse) = some p → m.Above result p
  | .joinParam arg param => ∀ p, m.prov arg = some p → m.Above param p

theorem ProvMap.above_of_raiseProv {m m' : ProvMap} {v : Value} {p : Prov}
    (h : m.raiseProv v p = (m', false)) : m.Above v p := by
  unfold raiseProv at h
  split at h
  · cases congrArg Prod.snd h
  · rename_i old hold
    split at h
    · rename_i hjoin
      exact ⟨old, hold, hjoin⟩
    · cases congrArg Prod.snd h

theorem ProvUpdate.quiet {m : ProvMap} {u : ProvUpdate} (h : u.apply m = (m, false)) :
    u.Quiet m := by
  cases u with
  | root result =>
      simp only [apply] at h
      cases hid : m.rootIds result with
      | some p =>
          have hsame : m.rootOf result = m := by rw [ProvMap.rootOf, hid]
          rw [hsame, hid] at h
          exact ⟨p, hid, ProvMap.above_of_raiseProv h⟩
      | none =>
          -- The update would have assigned an id.
          exfalso
          have hroot : ∀ q, ((m.rootOf result).raiseProv? result q).1.rootIds =
              (m.rootOf result).rootIds := by
            intro q
            cases q with
            | none => rfl
            | some p =>
                simp only [ProvMap.raiseProv?, ProvMap.raiseProv]
                split
                · rfl
                · split <;> rfl
          have hids := congrArg (fun r : ProvMap × Bool => r.1.rootIds result) h
          simp only [hroot, hid] at hids
          rw [ProvMap.rootOf, hid] at hids
          simp only [ProvMap.newRoot] at hids
          split at hids <;> simp only [Function.update_self, reduceCtorEq] at hids
  | untracked result => exact ProvMap.above_of_raiseProv h
  | aliasResult operand result =>
      intro p hp
      simp only [apply, hp] at h
      exact ProvMap.above_of_raiseProv h
  | joinSelect onTrue onFalse result =>
      intro p hp
      simp only [apply, hp] at h
      exact ProvMap.above_of_raiseProv h
  | joinParam arg param =>
      intro p hp
      simp only [apply, hp] at h
      exact ProvMap.above_of_raiseProv h

/-- Entries only climb. -/
theorem ProvUpdate.above_apply {m : ProvMap} {v : Value} {p : Prov} (h : m.Above v p)
    (u : ProvUpdate) : (u.apply m).1.Above v p := by
  have hjoin : ∀ a b q : Prov, a.join q = a → (a.join b).join q = a.join b := by
    rintro (a | _) (b | _) (q | _) hq
    all_goals simp only [Prov.join, Prov.roots.injEq, reduceCtorEq] at hq ⊢
    rw [Nat.or_right_comm, hq]
  have hraise : ∀ m' : ProvMap, m'.prov = m.prov → ∀ w q, (m'.raiseProv? w q).1.Above v p := by
    intro m' hprov w q
    obtain ⟨old, hold, hp⟩ := h
    rw [← hprov] at hold
    cases q with
    | none => exact ⟨old, hold, hp⟩
    | some q =>
        simp only [ProvMap.raiseProv?, ProvMap.raiseProv]
        by_cases hvw : v = w
        · subst hvw
          simp only [hold]
          split
          · exact ⟨old, hold, hp⟩
          · exact ⟨_, m'.insert_self v _, hjoin old q p hp⟩
        · have hkept : ∀ q', (m'.insert w q').prov v = some old := fun q' =>
            (m'.insert_of_ne hvw q').trans hold
          split
          · exact ⟨old, hkept _, hp⟩
          · split
            · exact ⟨old, hold, hp⟩
            · exact ⟨old, hkept _, hp⟩
  cases u with
  | root result =>
      apply hraise
      simp only [ProvMap.rootOf, ProvMap.newRoot]
      split
      · rfl
      · split <;> rfl
  | untracked result => exact hraise m rfl result (some .unknown)
  | aliasResult operand result => exact hraise m rfl _ _
  | joinSelect onTrue onFalse result => exact hraise m rfl _ _
  | joinParam arg param => exact hraise m rfl _ _

theorem justified_branchEdge {k : Kernel} {inst : Inst} (hinst : inst ∈ k.insts)
    {target : Successor} (htarget : target ∈ inst.succs) :
    ∀ u ∈ provBranchEdge k target, u.Justified k := by
  intro u hu
  obtain ⟨⟨arg, param⟩, hzip, rfl⟩ := List.mem_map.mp hu
  exact fun r hr => .param hinst htarget hzip hr

theorem justified_provTransfer {k : Kernel} {inst : Inst} (hinst : inst ∈ k.insts) :
    ∀ u ∈ provTransfer k inst, u.Justified k := by
  have huntracked : ∀ rs : List Value, ∀ u ∈ rs.map ProvUpdate.untracked, u.Justified k := by
    intro rs u hu
    obtain ⟨r, -, rfl⟩ := List.mem_map.mp hu
    exact trivial
  cases inst
  case addressOf r name =>
    intro u hu
    obtain rfl := List.mem_singleton.mp hu
    exact ⟨_, .addressOf hinst⟩
  case alloca r operands =>
    intro u hu
    obtain rfl := List.mem_singleton.mp hu
    exact ⟨_, .alloca hinst⟩
  case gep r base ty indices =>
    intro u hu
    obtain rfl := List.mem_singleton.mp hu
    exact fun _ hr => .gep hinst hr
  case cast kind r operand =>
    intro u hu
    obtain rfl := List.mem_singleton.mp hu
    exact fun _ hr => .cast hinst hr
  case select r cond onTrue onFalse =>
    intro u hu
    obtain rfl := List.mem_singleton.mp hu
    exact fun _ hr => hr.elim (.onTrue hinst) (.onFalse hinst)
  case store => exact fun u hu => absurd hu List.not_mem_nil
  case br target => exact justified_branchEdge hinst List.mem_cons_self
  case condBr cond onTrue onFalse =>
    intro u hu
    rcases List.mem_append.mp hu with hu | hu
    · exact justified_branchEdge hinst List.mem_cons_self u hu
    · exact justified_branchEdge hinst (List.mem_cons_of_mem _ List.mem_cons_self) u hu
  case call rs callee operands =>
    intro u hu
    obtain ⟨r, hr, rfl⟩ := List.mem_map.mp hu
    by_cases hdyn : canonicalName callee = DYN_SHARED_INTRINSIC
    · rw [if_pos hdyn]
      exact ⟨_, .dynShared hinst hr hdyn⟩
    · rw [if_neg hdyn]
      exact trivial
  all_goals exact huntracked _

/-- The updates are about the results of their operation, or about parameters
    of its targets. -/
theorem target_provTransfer {k : Kernel} {inst : Inst} {u : ProvUpdate}
    (hu : u ∈ provTransfer k inst) :
    u.target ∈ inst.results ∨
      ∃ target ∈ inst.succs, u.target ∈ (k.block target.dest).params ∧ ∀ v, u ≠ .root v := by
  have huntracked : ∀ rs : List Value, u ∈ rs.map ProvUpdate.untracked → u.target ∈ rs := by
    intro rs hu
    obtain ⟨r, hr, rfl⟩ := List.mem_map.mp hu
    exact hr
  have hedge : ∀ target, u ∈ provBranchEdge k target →
      u.target ∈ (k.block target.dest).params ∧ ∀ v, u ≠ .root v := by
    intro target hu
    obtain ⟨⟨arg, param⟩, hzip, rfl⟩ := List.mem_map.mp hu
    exact ⟨(List.of_mem_zip hzip).2, fun v h => by cases h⟩
  cases inst
  case addressOf | alloca | gep | cast | select =>
    obtain rfl := List.mem_singleton.mp hu
    exact .inl List.mem_cons_self
  case store => exact absurd hu List.not_mem_nil
  case br target => exact .inr ⟨target, List.mem_cons_self, hedge target hu⟩
  case condBr cond onTrue onFalse =>
    rcases List.mem_append.mp hu with hu | hu
    · exact .inr ⟨onTrue, List.mem_cons_self, hedge onTrue hu⟩
    · exact .inr ⟨onFalse, List.mem_cons_of_mem _ List.mem_cons_self, hedge onFalse hu⟩
  case call rs callee operands =>
    obtain ⟨r, hr, rfl⟩ := List.mem_map.mp hu
    refine .inl ?_
    split <;> exact hr
  all_goals exact .inl (huntracked _ hu)

theorem rootsApart {k : Kernel} (hssa : k.region.Ssa) : RootsApart k := by
  intro u hu v hroot htarget
  obtain ⟨inst, hinst, hu⟩ := List.mem_flatMap.mp hu
  obtain ⟨inst', hinst', hroot⟩ := List.mem_flatMap.mp hroot
  have hv : v ∈ inst'.results := by
    rcases target_provTransfer hroot with h | ⟨_, -, -, hne⟩
    · exact h
    · exact absurd rfl (hne v)
  rcases target_provTransfer hu with h | ⟨_, -, hparam, -⟩
  · rw [htarget] at h
    obtain rfl := Kernel.inst_unique hssa hinst hinst' h hv
    -- The updates of one operation are of one kind.
    cases inst
    case addressOf | alloca =>
      obtain rfl := List.mem_singleton.mp hu
      obtain rfl : v = _ := by simpa [provTransfer] using hroot
      rfl
    case call rs callee operands =>
      obtain ⟨r, -, rfl⟩ := List.mem_map.mp hu
      obtain ⟨r', -, hr'⟩ := List.mem_map.mp hroot
      split at hr'
      · rename_i hdyn
        obtain rfl : r' = v := by simpa using hr'
        simp only [hdyn, if_true, ProvUpdate.target] at htarget ⊢
        rw [htarget]
      · cases hr'
    all_goals simp [provTransfer, provBranchEdge, Inst.results] at hroot
  · rw [htarget] at hparam
    exact absurd hv (Kernel.param_notMem_results hssa hparam hinst')

/-! ### Parameters -/

/-- What is known of an entry parameter's entry. -/
def ProvMap.ParamOk (k : Kernel) (m : ProvMap) (param : Value) : Prop :=
  ∃ p, m.Above param p ∧ (p = .unknown ∨
    (k.paramsGlobal = true ∧ isPointer param.ty = true ∧ m.rootIds param = some p))

theorem ProvMap.rootIds_rootOf {m : ProvMap} {v r : Value} {p : Prov}
    (h : m.rootIds r = some p) : (m.rootOf v).rootIds r = some p := by
  unfold rootOf
  split
  · exact h
  · rename_i hnone
    have hne : r ≠ v := fun hrv => by
      rw [hrv, hnone] at h
      cases h
    unfold newRoot
    split <;> exact (Function.update_of_ne hne ..).trans h

theorem ProvMap.rootIds_rootOf_self (m : ProvMap) (v : Value) :
    ∃ p, (m.rootOf v).rootIds v = some p := by
  unfold rootOf
  split
  · rename_i p hp
    exact ⟨p, hp⟩
  · unfold newRoot
    split <;> exact ⟨_, Function.update_self ..⟩

theorem ProvMap.prov_rootOf (m : ProvMap) (v : Value) : (m.rootOf v).prov = m.prov := by
  unfold rootOf newRoot
  split
  · rfl
  · split <;> rfl

/-- Ids are assigned once. -/
theorem ProvUpdate.rootIds_apply {m : ProvMap} {r : Value} {p : Prov}
    (h : m.rootIds r = some p) (u : ProvUpdate) : (u.apply m).1.rootIds r = some p := by
  have hraise : ∀ (m' : ProvMap) v q, (m'.raiseProv? v q).1.rootIds = m'.rootIds := by
    intro m' v q
    cases q with
    | none => rfl
    | some q =>
        simp only [ProvMap.raiseProv?, ProvMap.raiseProv]
        split
        · rfl
        · split <;> rfl
  cases u with
  | root result =>
      simp only [apply, hraise]
      exact ProvMap.rootIds_rootOf h
  | untracked result => exact (congrFun (hraise m result (some .unknown)) r).trans h
  | aliasResult operand result => exact (congrFun (hraise m _ _) r).trans h
  | joinSelect onTrue onFalse result => exact (congrFun (hraise m _ _) r).trans h
  | joinParam arg param => exact (congrFun (hraise m _ _) r).trans h

theorem ProvUpdate.paramOk_apply {k : Kernel} {m : ProvMap} {param : Value}
    (h : m.ParamOk k param) (u : ProvUpdate) : (u.apply m).1.ParamOk k param := by
  obtain ⟨p, habove, hp⟩ := h
  refine ⟨p, above_apply habove u, hp.imp id ?_⟩
  rintro ⟨hkernel, hptr, hid⟩
  exact ⟨hkernel, hptr, rootIds_apply hid u⟩

/-- A parameter is no root of the body. -/
theorem root_notMem_of_param {k : Kernel} (hssa : k.region.Ssa) {v : Value}
    (hv : v ∈ k.entry.params) : ProvUpdate.root v ∉ provUpdates k := by
  intro hroot
  obtain ⟨inst, hinst, hroot⟩ := List.mem_flatMap.mp hroot
  rcases target_provTransfer hroot with h | ⟨_, -, -, hne⟩
  · exact Kernel.param_notMem_results hssa hv hinst h
  · exact hne v rfl

theorem Prov.join_self (p : Prov) : p.join p = p := by
  cases p with
  | roots mask => rw [join, Nat.or_self]
  | unknown => rfl

theorem ProvInv.paramProv {k : Kernel} (hssa : k.region.Ssa) {m : ProvMap} (h : ProvInv k m)
    {param : Value} (hparam : param ∈ k.entry.params) :
    ProvInv k (paramProv k m param) ∧ (Crabbit.Nvptx.paramProv k m param).ParamOk k param ∧
      ∀ v, v ≠ param → m.ParamOk k v → (Crabbit.Nvptx.paramProv k m param).ParamOk k v := by
  have hpending : ∀ ids : Value → Option Prov, ProvUpdate.root param ∈ provUpdates k →
      ids param ≠ none := fun _ hroot => absurd hroot (root_notMem_of_param hssa hparam)
  unfold Crabbit.Nvptx.paramProv
  split
  · rename_i hcond
    obtain ⟨p, hp⟩ := m.rootIds_rootOf_self param
    have hroot := h.rootOf (.param hparam hcond.2 hcond.1)
    rw [hp, Option.getD_some]
    refine ⟨hroot.insert (hroot.names_root hp) (hpending _), ?_, ?_⟩
    · exact ⟨p, ⟨p, ProvMap.insert_self .., p.join_self⟩, .inr ⟨hcond.2, hcond.1, hp⟩⟩
    · rintro v hv ⟨q, ⟨old, hold, hjoin⟩, hq⟩
      refine ⟨q, ⟨old, ?_, hjoin⟩, hq.imp id ?_⟩
      · rw [ProvMap.insert_of_ne _ hv, ProvMap.prov_rootOf]
        exact hold
      · rintro ⟨hkernel, hptr, hid⟩
        exact ⟨hkernel, hptr, ProvMap.rootIds_rootOf hid⟩
  · refine ⟨h.insert (m.names_unknown k param) (hpending _), ?_, ?_⟩
    · exact ⟨.unknown, ⟨.unknown, ProvMap.insert_self .., rfl⟩, .inl rfl⟩
    · rintro v hv ⟨q, ⟨old, hold, hjoin⟩, hq⟩
      exact ⟨q, ⟨old, (ProvMap.insert_of_ne _ hv _).trans hold, hjoin⟩, hq⟩

/-- What holds of the map when the loop starts, and all along. -/
structure LoopInv (k : Kernel) (m : ProvMap) : Prop extends ProvInv k m where
  params : ∀ param ∈ k.entry.params, m.ParamOk k param

theorem loopInv_initial {k : Kernel} (hssa : k.region.Ssa) : LoopInv k (initialProv k) := by
  have hfold : ∀ (params : List Value), (∀ p ∈ params, p ∈ k.entry.params) →
      ∀ m, ProvInv k m → ProvInv k (params.foldl (paramProv k) m) ∧
        ∀ v, v ∈ params ∨ m.ParamOk k v → (params.foldl (paramProv k) m).ParamOk k v := by
    intro params
    induction params with
    | nil =>
        intro _ m hm
        exact ⟨hm, fun v hv => hv.elim (fun h => absurd h List.not_mem_nil) id⟩
    | cons p params ih =>
        intro hmem m hm
        obtain ⟨hinv, hself, hothers⟩ := hm.paramProv hssa (hmem p List.mem_cons_self)
        obtain ⟨hinv', hrest⟩ := ih (fun q hq => hmem q (List.mem_cons_of_mem _ hq)) _ hinv
        refine ⟨hinv', fun v hv => hrest v ?_⟩
        by_cases hvp : v = p
        · exact .inr (hvp ▸ hself)
        · rcases hv with hv | hv
          · exact .inl ((List.mem_cons.mp hv).resolve_left hvp)
          · exact .inr (hothers v hvp hv)
  have hempty : ProvInv k ⟨fun _ => none, fun _ => none, 0⟩ :=
    ⟨fun _ _ h => (by cases h), fun _ _ _ h => (by cases h), fun _ _ h => (by cases h),
      fun _ _ h => (by cases h), fun _ _ _ => rfl⟩
  obtain ⟨hinv, hparams⟩ := hfold k.entry.params (fun _ h => h) _ hempty
  exact ⟨hinv, fun p hp => hparams p (.inl hp)⟩

/-- What the loop returns is a fixpoint of every update of the body. -/
theorem quiet_of_inferProv {k : Kernel} (hssa : k.region.Ssa) {fuel : Nat} {m : ProvMap}
    (h : inferProv k fuel = some m) :
    LoopInv k m ∧ ∀ inst ∈ k.insts, ∀ u ∈ provTransfer k inst, u.Quiet m := by
  have hupdate : ∀ visit ∈ (provUpdates k).map fun u m => u.apply m,
      ∃ u ∈ provUpdates k, u.Justified k ∧ visit = fun m => u.apply m := by
    intro visit hvisit
    obtain ⟨u, hu, rfl⟩ := List.mem_map.mp hvisit
    obtain ⟨inst, hinst, hu'⟩ := List.mem_flatMap.mp hu
    exact ⟨u, hu, justified_provTransfer hinst u hu', rfl⟩
  have hkeeps : ∀ visit ∈ (provUpdates k).map fun u m => u.apply m,
      Keeps (LoopInv k) visit := by
    intro visit hvisit m hm
    obtain ⟨u, hu, hjust, rfl⟩ := hupdate visit hvisit
    exact ⟨hm.toProvInv.apply (rootsApart hssa) hu hjust,
      fun p hp => u.paramOk_apply (hm.params p hp)⟩
  have hhonest : ∀ visit ∈ (provUpdates k).map fun u m => u.apply m,
      Honest (LoopInv k) visit := by
    intro visit hvisit m hm
    obtain ⟨u, hu, -, rfl⟩ := hupdate visit hvisit
    exact ProvUpdate.honest hu m hm.toProvInv
  refine ⟨sweeps_keeps hkeeps (loopInv_initial hssa) h, fun inst hinst u hu => ?_⟩
  have hmem : (fun m => ProvUpdate.apply m u) ∈ (provUpdates k).map fun u m => u.apply m :=
    List.mem_map.mpr ⟨u, List.mem_flatMap_of_mem hinst hu, rfl⟩
  exact ProvUpdate.quiet (sweeps_fixed hkeeps hhonest (loopInv_initial hssa) h _ hmem)

/-! ## Runs -/

/-- A value is an address in the object of one of the roots named. -/
def Prov.Covers (k : Kernel) (m : ProvMap) (val : Val) : Prov → Prop
  | .unknown => True
  | .roots mask => ∃ r i o, m.HasId r i ∧ mask.testBit i = true ∧ Request k r o ∧
      val.object = some o

/-- The value has an entry, which names its object. -/
def Sourced (k : Kernel) (m : ProvMap) (v : Value) (val : Val) : Prop :=
  ∃ p, m.prov v = some p ∧ p.Covers k m val

section Results

variable {k : Kernel} {m : ProvMap} {v : Value} {val : Val}

theorem ProvMap.Above.sourced {p : Prov} (h : m.Above v p) (hval : p.Covers k m val) :
    Sourced k m v val := by
  obtain ⟨old, hold, hjoin⟩ := h
  refine ⟨old, hold, ?_⟩
  cases old with
  | unknown => exact trivial
  | roots b =>
      cases p with
      | unknown => cases hjoin
      | roots a =>
          obtain ⟨r, i, o, hid, hbit, hrequest, hobject⟩ := hval
          refine ⟨r, i, o, hid, ?_, hrequest, hobject⟩
          rw [Prov.join, Prov.roots.injEq] at hjoin
          rw [← hjoin, Nat.testBit_or, hbit, Bool.or_true]

/-- An address in the object of a request is named by the request's id. -/
theorem covers_of_request (hinv : ProvInv k m) {p : Prov} (hid : m.rootIds v = some p)
    {o : Object} (hrequest : Request k v o) (hobject : val.object = some o) :
    p.Covers k m val := by
  cases p with
  | unknown => exact trivial
  | roots mask =>
      obtain ⟨i, -, rfl⟩ := hinv.ids v mask hid
      exact ⟨v, i, o, hid, Nat.testBit_two_pow_self, hrequest, hobject⟩

/-- What an operation returns is named by the fixpoint. -/
theorem sourced_result {thread : Thread} {env : Env} {inst : Inst} (hinv : ProvInv k m)
    (hinst : inst ∈ k.insts) (hquiet : ∀ u ∈ provTransfer k inst, u.Quiet m)
    (henv : ∀ v val, env v = some val → Sourced k m v val) {r : Value} (hr : r ∈ inst.results)
    (hval : Yields thread env inst r val) (hoperands : ∀ v ∈ inst.operands, (env v).isSome) :
    Sourced k m r val := by
  have hroot : ProvUpdate.root r ∈ provTransfer k inst →
      (∃ o, Request k r o ∧ val.object = some o) → Sourced k m r val := by
    rintro hu ⟨o, hrequest, hobject⟩
    obtain ⟨p, hid, habove⟩ := hquiet _ hu
    exact habove.sourced (covers_of_request hinv hid hrequest hobject)
  have huntracked : ProvUpdate.untracked r ∈ provTransfer k inst → Sourced k m r val :=
    fun hu => ProvMap.Above.sourced (hquiet _ hu) trivial
  have halias : ∀ w, ProvUpdate.aliasResult w r ∈ provTransfer k inst →
      (∃ b, env w = some b ∧ val.object = b.object) → Sourced k m r val := by
    rintro w hu ⟨b, hb, hobject⟩
    obtain ⟨p, hp, hcovers⟩ := henv w b hb
    refine (hquiet _ hu p hp).sourced ?_
    cases p with
    | unknown => exact trivial
    | roots mask =>
        obtain ⟨q, i, o, hid, hbit, hrequest, ho⟩ := hcovers
        exact ⟨q, i, o, hid, hbit, hrequest, hobject.trans ho⟩
  cases inst
  case addressOf result name =>
    obtain rfl := List.mem_singleton.mp hr
    exact hroot List.mem_cons_self ⟨_, .addressOf hinst, hval⟩
  case alloca result operands =>
    obtain rfl := List.mem_singleton.mp hr
    exact hroot List.mem_cons_self ⟨_, .alloca hinst, hval⟩
  case gep result base ty indices =>
    obtain rfl := List.mem_singleton.mp hr
    obtain ⟨b, offset, hb, -, hobject, -⟩ := hval
    exact halias base List.mem_cons_self ⟨b, hb, hobject⟩
  case cast kind result operand =>
    obtain rfl := List.mem_singleton.mp hr
    exact halias operand List.mem_cons_self ⟨val, hval, rfl⟩
  case select result cond onTrue onFalse =>
    obtain rfl := List.mem_singleton.mp hr
    have hsome : ∀ v ∈ [cond, onTrue, onFalse], ∃ p, m.prov v = some p := by
      intro v hv
      obtain ⟨b, hb⟩ := Option.isSome_iff_exists.mp (hoperands v hv)
      exact (henv v b hb).imp fun _ h => h.1
    obtain ⟨a, ha⟩ := hsome onTrue (by simp)
    obtain ⟨b, hb⟩ := hsome onFalse (by simp)
    have habove := hquiet (.joinSelect onTrue onFalse r) List.mem_cons_self (a.join b)
      (by rw [ha, hb]; rfl)
    refine habove.sourced ?_
    -- The arm chosen is named by the join.
    obtain ⟨p, hp, hcovers⟩ := henv _ val hval
    have hchosen : p = a ∨ p = b := by
      split at hp
      · exact .inr (Option.some.inj (hp.symm.trans hb))
      · exact .inl (Option.some.inj (hp.symm.trans ha))
    cases a with
    | unknown => exact trivial
    | roots a =>
        cases b with
        | unknown => exact trivial
        | roots b =>
            rcases hchosen with rfl | rfl
            · obtain ⟨q, i, o, hid, hbit, hrest⟩ := hcovers
              exact ⟨q, i, o, hid, by rw [Nat.testBit_or, hbit, Bool.true_or], hrest⟩
            · obtain ⟨q, i, o, hid, hbit, hrest⟩ := hcovers
              exact ⟨q, i, o, hid, by rw [Nat.testBit_or, hbit, Bool.or_true], hrest⟩
  case call rs callee operands =>
    have hu := List.mem_map_of_mem
      (f := if canonicalName callee = DYN_SHARED_INTRINSIC then ProvUpdate.root
        else ProvUpdate.untracked) hr
    by_cases hdyn : canonicalName callee = DYN_SHARED_INTRINSIC
    · rw [if_pos hdyn] at hu
      have hmem : r ∈ rs := hr
      refine hroot ?_ ⟨_, .dynShared hinst hmem hdyn, hval.2 hdyn⟩
      rw [provTransfer, if_pos hdyn]
      exact hu
    · rw [if_neg hdyn] at hu
      apply huntracked
      rw [provTransfer, if_neg hdyn]
      exact hu
  case store | br | condBr => exact absurd hr List.not_mem_nil
  all_goals exact huntracked (List.mem_map_of_mem hr)

end Results

theorem provJoinParam_mem {k : Kernel} {inst : Inst} {target : Successor}
    (h : target ∈ inst.succs) {arg param : Value}
    (hzip : (arg, param) ∈ target.args.zip (k.block target.dest).params) :
    ProvUpdate.joinParam arg param ∈ provTransfer k inst := by
  have hedge : ProvUpdate.joinParam arg param ∈ provBranchEdge k target :=
    List.mem_map.mpr ⟨(arg, param), hzip, rfl⟩
  cases inst
  case br target' =>
    obtain rfl := List.mem_singleton.mp h
    exact hedge
  case condBr cond onTrue onFalse =>
    rcases List.mem_cons.mp h with rfl | h
    · exact List.mem_append_left _ hedge
    · obtain rfl := List.mem_singleton.mp h
      exact List.mem_append_right _ hedge
  all_goals exact absurd h List.not_mem_nil

/-- Every value a thread computes is named by the fixpoint. -/
theorem Reachable.sourced {k : Kernel} {thread : Thread} {m : ProvMap} (hinv : LoopInv k m)
    (hquiet : ∀ inst ∈ k.insts, ∀ u ∈ provTransfer k inst, u.Quiet m) {s : State}
    (h : Reachable k thread s) : ∀ v val, s.env v = some val → Sourced k m v val := by
  induction h with
  | entry h =>
      intro v val hv
      by_cases hp : v ∈ k.entry.params
      · obtain ⟨p, habove, hcases⟩ := hinv.params v hp
        refine habove.sourced ?_
        rcases hcases with rfl | ⟨hkernel, hptr, hid⟩
        · exact trivial
        · obtain ⟨val', hval', -, hobject⟩ := h.params v hp
          obtain rfl := Option.some.inj (hval'.symm.trans hv)
          exact covers_of_request hinv.toProvInv hid (.param hp hkernel hptr)
            (hobject hkernel hptr)
      · rw [h.others v hp] at hv
        cases hv
  | @step s t h hstep ih =>
      cases hstep with
      | @next inst rest env hrest hsuccs hoperands hframe hresults =>
          have hinst : inst ∈ k.insts := h.mem_insts (by rw [hrest]; exact List.mem_cons_self)
          intro v val hv
          by_cases hres : v ∈ inst.results
          · obtain ⟨val', hval', -, hyields⟩ := hresults v hres
            obtain rfl := Option.some.inj (hval'.symm.trans hv)
            exact sourced_result hinv.toProvInv hinst (hquiet inst hinst) ih hres hyields
              hoperands
          · exact ih v val ((hframe v hres).symm.trans hv)
      | @jump inst rest target env hrest htaken htarget hoperands hframe hparams =>
          have hinst : inst ∈ k.insts := h.mem_insts (by rw [hrest]; exact List.mem_cons_self)
          intro v val hv
          by_cases hres : v ∈ (k.block target.dest).params
          · obtain ⟨arg, hzip, harg⟩ := exists_arg hparams hres
            have hu : ProvUpdate.joinParam arg v ∈ provTransfer k inst :=
              provJoinParam_mem htarget hzip
            obtain ⟨p, hp, hcovers⟩ := ih arg val (harg.symm.trans hv)
            exact (hquiet inst hinst _ hu p hp).sourced hcovers
          · exact ih v val ((hframe v hres).symm.trans hv)

/-! ## The write set -/

/-- A load of the body goes through this address. -/
def LoadAddress (k : Kernel) (v : Value) : Prop := ∃ r, .load r v ∈ k.insts

/-- An operation writes through this address, and through no other. -/
def Inst.WritesThrough (w : Value) : Inst → Prop
  | .store _ address | .atomicRmw _ address _ | .atomicCmpxchg _ address _ => w = address
  | .call _ callee operands =>
      callMemEffect (canonicalName callee) = .atomicPtrArg ∧ operands.head? = some w
  | _ => False

/-- An operation of the body writes through this address. -/
def WriteAddress (k : Kernel) (w : Value) : Prop := ∃ inst ∈ k.insts, inst.WritesThrough w

/-- An operation may write through any pointer it can reach. -/
def Inst.WritesAnything : Inst → Prop
  | .inlineAsm .. => True
  | .call _ callee _ => callMemEffect (canonicalName callee) = .unknown
  | _ => False

theorem Inst.WritesAnything.writeMask {inst : Inst} (h : inst.WritesAnything)
    (prov : Value → Option Prov) : writeMask prov inst = none := by
  cases inst
  case inlineAsm => rfl
  case call results callee operands =>
    have heffect : callMemEffect (canonicalName callee) = .unknown := h
    simp only [Nvptx.writeMask, heffect]
  all_goals exact absurd h id

theorem Inst.WritesThrough.writeMask {inst : Inst} {w : Value} (h : inst.WritesThrough w)
    (prov : Value → Option Prov) : writeMask prov inst = maskOf (prov w) := by
  cases inst
  case store | atomicRmw | atomicCmpxchg => rw [show w = _ from h, Nvptx.writeMask]
  case call results callee operands =>
    simp only [Nvptx.writeMask, h.1, h.2]
    rfl
  all_goals exact absurd h id

/-- The roots written and whether everything is dirty, one more operation seen. -/
def addWrite (prov : Value → Option Prov) (acc : Nat × Bool) (inst : Inst) : Nat × Bool :=
  match writeMask prov inst with
  | some mask => (acc.1 ||| mask, acc.2)
  | none => (acc.1, true)

/-- Dirt stays. -/
theorem foldl_addWrite_mono (prov : Value → Option Prov) (l : List Inst) (acc : Nat × Bool) :
    (acc.2 = true → (l.foldl (addWrite prov) acc).2 = true) ∧
      ∀ i, acc.1.testBit i = true → (l.foldl (addWrite prov) acc).1.testBit i = true := by
  induction l generalizing acc with
  | nil => exact ⟨id, fun _ => id⟩
  | cons inst l ih =>
      have hvisit : (acc.2 = true → (addWrite prov acc inst).2 = true) ∧
          ∀ i, acc.1.testBit i = true → (addWrite prov acc inst).1.testBit i = true := by
        unfold addWrite
        split
        · refine ⟨id, fun i hi => ?_⟩
          rw [Nat.testBit_or, hi, Bool.true_or]
        · exact ⟨fun _ => rfl, fun _ => id⟩
      obtain ⟨hall, hbits⟩ := ih (addWrite prov acc inst)
      exact ⟨fun h => hall (hvisit.1 h), fun i hi => hbits i (hvisit.2 i hi)⟩

theorem mask_of_foldl_addWrite {prov : Value → Option Prov} {inst : Inst} {l : List Inst}
    (acc : Nat × Bool) (hclean : (l.foldl (addWrite prov) acc).2 = false) (hmem : inst ∈ l) :
    ∃ mask, writeMask prov inst = some mask ∧
      ∀ i, mask.testBit i = true → (l.foldl (addWrite prov) acc).1.testBit i = true := by
  induction l generalizing acc with
  | nil => exact absurd hmem List.not_mem_nil
  | cons other l ih =>
      rw [List.foldl_cons] at hclean ⊢
      rcases List.mem_cons.mp hmem with rfl | hmem
      · cases hmask : writeMask prov inst with
        | none =>
            -- A write to anything would have left everything dirty.
            have hdirty : (addWrite prov acc inst).2 = true := by
              simp only [addWrite, hmask]
            rw [(foldl_addWrite_mono prov l _).1 hdirty] at hclean
            cases hclean
        | some mask =>
            refine ⟨mask, rfl, fun i hi => (foldl_addWrite_mono prov l _).2 i ?_⟩
            simp only [addWrite, hmask]
            rw [Nat.testBit_or, hi, Bool.or_true]
      · exact ih _ hclean hmem

/-- Unless everything is dirty, the roots every operation writes are. -/
theorem dirty_of_writeMask {k : Kernel} {prov : Value → Option Prov}
    (h : (dirtyRoots k prov).2 = false) {inst : Inst} (hinst : inst ∈ k.insts) :
    ∃ mask, writeMask prov inst = some mask ∧
      ∀ i, mask.testBit i = true → (dirtyRoots k prov).1.testBit i = true :=
  mask_of_foldl_addWrite (0, false) h hinst

/-! ## What derives from what -/

theorem Prov.join_comm (p q : Prov) : p.join q = q.join p := by
  cases p <;> cases q <;> simp only [join, Nat.or_comm]

theorem Prov.join_assoc (p q r : Prov) : (p.join q).join r = p.join (q.join r) := by
  cases p <;> cases q <;> cases r <;> simp only [join, Nat.or_assoc]

theorem ProvMap.Above.trans {m : ProvMap} {v : Value} {p q : Prov} (h : m.Above v q)
    (hq : q.join p = q) : m.Above v p := by
  obtain ⟨old, hold, hjoin⟩ := h
  refine ⟨old, hold, ?_⟩
  calc old.join p = (old.join q).join p := by rw [hjoin]
    _ = old.join q := by rw [Prov.join_assoc, hq]
    _ = old := hjoin

/-- What derives from a value has all that its entry has. -/
theorem ProvMap.Above.derives {k : Kernel} {m : ProvMap}
    (hquiet : ∀ inst ∈ k.insts, ∀ u ∈ provTransfer k inst, u.Quiet m) {v r : Value} {p : Prov}
    (hr : m.Above r p) (h : Derives k v r) : m.Above v p := by
  induction h with
  | refl => exact hr
  | gep h _ ih =>
      obtain ⟨q, hq, hjoin⟩ := ih hr
      exact (hquiet _ h _ List.mem_cons_self q hq).trans hjoin
  | cast h _ ih =>
      obtain ⟨q, hq, hjoin⟩ := ih hr
      exact (hquiet _ h _ List.mem_cons_self q hq).trans hjoin
  | @onTrue v cond onTrue onFalse _ h _ ih =>
      obtain ⟨a, ha, hjoin⟩ := ih hr
      have hup := hquiet _ h (.joinSelect onTrue onFalse v) List.mem_cons_self
      cases hb : m.prov onFalse with
      | none => exact (hup a (by rw [ha, hb]; rfl)).trans hjoin
      | some b =>
          refine (hup (a.join b) (by rw [ha, hb]; rfl)).trans ?_
          rw [a.join_comm b, Prov.join_assoc, hjoin]
  | @onFalse v cond onTrue onFalse _ h _ ih =>
      obtain ⟨b, hb, hjoin⟩ := ih hr
      have hup := hquiet _ h (.joinSelect onTrue onFalse v) List.mem_cons_self
      cases ha : m.prov onTrue with
      | none => exact (hup b (by rw [ha, hb]; rfl)).trans hjoin
      | some a =>
          refine (hup (a.join b) (by rw [ha, hb]; rfl)).trans ?_
          rw [Prov.join_assoc, hjoin]
  | param h htarget hzip _ ih =>
      obtain ⟨q, hq, hjoin⟩ := ih hr
      exact (hquiet _ h _ (provJoinParam_mem htarget hzip) q hq).trans hjoin

/-- An entry above `unknown` is `unknown`. -/
theorem ProvMap.Above.eq_unknown {m : ProvMap} {v : Value} (h : m.Above v .unknown) :
    m.prov v = some .unknown := by
  obtain ⟨old, hold, hjoin⟩ := h
  cases old with
  | unknown => exact hold
  | roots => cases hjoin

/-- An entry above the id of a root has its bit. -/
theorem ProvMap.Above.testBit {m : ProvMap} {v : Value} {i mask : Nat}
    (h : m.Above v (.roots (2 ^ i))) (hmask : m.prov v = some (.roots mask)) :
    mask.testBit i = true := by
  obtain ⟨old, hold, hjoin⟩ := h
  obtain rfl := Option.some.inj (hmask.symm.trans hold)
  rw [Prov.join, Prov.roots.injEq] at hjoin
  rw [← hjoin, Nat.testBit_or, Nat.testBit_two_pow_self, Bool.or_true]

theorem untracked_mem {k : Kernel} {inst : Inst} (h : inst.tracked = false) {v : Value}
    (hv : v ∈ inst.results) : ProvUpdate.untracked v ∈ provTransfer k inst := by
  cases inst
  case addressOf | alloca | gep | cast | select => cases h
  case store | br | condBr => exact absurd hv List.not_mem_nil
  case call results callee operands =>
    have hne : ¬ canonicalName callee = DYN_SHARED_INTRINSIC := of_decide_eq_false h
    rw [provTransfer, if_neg hne]
    exact List.mem_map_of_mem hv
  all_goals exact List.mem_map_of_mem hv

section Fixpoint

variable {k : Kernel} {m : ProvMap} (hinv : LoopInv k m)
  (hquiet : ∀ inst ∈ k.insts, ∀ u ∈ provTransfer k inst, u.Quiet m)
include hinv hquiet

theorem unknown_of_escapes {v : Value} (h : Escapes k v) : m.prov v = some .unknown := by
  obtain ⟨u, hu, hderives⟩ := h
  have habove : m.Above u .unknown := by
    cases hu with
    | param hparam hother =>
        obtain ⟨p, hup, hcases⟩ := hinv.params _ hparam
        rcases hcases with rfl | ⟨hkernel, hptr, -⟩
        · exact hup
        · exact absurd ⟨hptr, hkernel⟩ hother
    | result h hv huntracked => exact hquiet _ h _ (untracked_mem huntracked hv)
  exact (habove.derives hquiet hderives).eq_unknown

/-- The entry of a request is above its id. -/
theorem above_of_request {r : Value} {o : Object} (h : Request k r o) :
    m.Above r .unknown ∨ ∃ i, m.Above r (.roots (2 ^ i)) := by
  have hid : ∀ p, m.rootIds r = some p → m.Above r p →
      m.Above r .unknown ∨ ∃ i, m.Above r (.roots (2 ^ i)) := by
    intro p hp hup
    cases p with
    | unknown => exact .inl hup
    | roots mask =>
        obtain ⟨i, -, rfl⟩ := hinv.ids r mask hp
        exact .inr ⟨i, hup⟩
  have hroot : ∀ inst ∈ k.insts, ProvUpdate.root r ∈ provTransfer k inst →
      m.Above r .unknown ∨ ∃ i, m.Above r (.roots (2 ^ i)) := by
    intro inst hinst hu
    obtain ⟨p, hp, hup⟩ := hquiet inst hinst _ hu
    exact hid p hp hup
  cases h with
  | param hparam =>
      obtain ⟨p, hup, hcases⟩ := hinv.params _ hparam
      rcases hcases with rfl | ⟨-, -, hp⟩
      · exact .inl hup
      · exact hid p hp hup
  | addressOf h => exact hroot _ h List.mem_cons_self
  | alloca h => exact hroot _ h List.mem_cons_self
  | dynShared h hv hcallee =>
      apply hroot _ h
      rw [provTransfer, if_pos hcallee]
      exact List.mem_map_of_mem hv

/-- Values derived from one request share a bit, unless one of them may be
    anything. -/
theorem exists_common_bit {a w r : Value} {o : Object} (hr : Request k r o) (ha : Derives k a r)
    (hw : Derives k w r) {mask mask' : Nat} (hmask : m.prov a = some (.roots mask))
    (hmask' : m.prov w = some (.roots mask')) :
    ∃ i, mask.testBit i = true ∧ mask'.testBit i = true := by
  rcases above_of_request hinv hquiet hr with hup | ⟨i, hup⟩
  · rw [(hup.derives hquiet ha).eq_unknown] at hmask
    cases hmask
  · exact ⟨i, (hup.derives hquiet ha).testBit hmask, (hup.derives hquiet hw).testBit hmask'⟩

end Fixpoint

/-! ## The claim of the set -/

section Storage

-- The module globals that are the dynamic shared window: in `.shared`, external
-- and without bytes of their own (`is_extern` of `emit_global`).
variable (window : String → Bool)

/-- The memory of an object. -/
def Object.memory : Object → Object
  | .global name => if window name then .dynShared else .global name
  | o => o

/-- Where the objects of every thread are.  Distinct memories do not overlap;
    one object may be at one place for several threads. -/
structure Storage where
  cells : Thread → Object → Nat → Prop
  apart : ∀ thread thread' o o' cell, cells thread o cell → cells thread' o' cell →
    o.memory window = o'.memory window

variable {window}

/-- An access of a thread through an address may be to a cell: to one of the
    object, where the address is known to be in one. -/
def Storage.Accesses (storage : Storage window) (thread : Thread) (val : Val) (cell : Nat) : Prop :=
  ∀ o, val.object = some o → storage.cells thread o cell

/-- A cell one thread loads from through an address in the set is written by
    a thread of the function. -/
def Violates (k : Kernel) (readonly : Value → Bool) (storage : Storage window) : Prop :=
  ∃ (thread thread' : Thread) (s s' : State) (a : Value) (val val' : Val) (cell : Nat),
    Reachable k thread s ∧ Reachable k thread' s' ∧ Reads s a val ∧ readonly a = true ∧
    Writes s' val' ∧ storage.Accesses thread val cell ∧ storage.Accesses thread' val' cell

end Storage

/-- Some operation may write through anything: inline assembly, a call nothing is
    known of, or a write through an address of anything. -/
def Clobbered (k : Kernel) : Prop :=
  (∃ inst ∈ k.insts, inst.WritesAnything) ∨ ∃ w, WriteAddress k w ∧ Escapes k w

/-- A load through a request and a write through a request of the same memory
    do not meet unseen: some operation may write through anything, the load may
    be of anything, or a request it may be of is written through itself. -/
def Isolated (k : Kernel) (window : String → Bool) : Prop :=
  Clobbered k ∨ ∀ a w r r' o o', LoadAddress k a → WriteAddress k w → Derives k a r →
    Derives k w r' → Request k r o → Request k r' o' → o.memory window = o'.memory window →
    Escapes k a ∨ ∃ w' q p, WriteAddress k w' ∧ Request k q p ∧ Derives k a q ∧ Derives k w' q

/-- A write is through a write address of the body, or of unknown extent. -/
theorem Writes.address {k : Kernel} {thread : Thread} {s : State} {val : Val}
    (hreach : Reachable k thread s) (h : Writes s val) :
    (∃ inst ∈ k.insts, inst.WritesAnything) ∨ ∃ w, WriteAddress k w ∧ s.env w = some val := by
  have hmem : ∀ {inst rest}, s.rest = inst :: rest → inst ∈ k.insts := fun hrest =>
    hreach.mem_insts (by rw [hrest]; exact List.mem_cons_self)
  cases h with
  | store hrest h => exact .inr ⟨_, ⟨_, hmem hrest, rfl⟩, h⟩
  | atomicRmw hrest h => exact .inr ⟨_, ⟨_, hmem hrest, rfl⟩, h⟩
  | atomicCmpxchg hrest h => exact .inr ⟨_, ⟨_, hmem hrest, rfl⟩, h⟩
  | atomicCall hrest heffect h => exact .inr ⟨_, ⟨_, hmem hrest, ⟨heffect, rfl⟩⟩, h⟩
  | unknownCall hrest heffect => exact .inl ⟨_, hmem hrest, heffect⟩
  | inlineAsm hrest => exact .inl ⟨_, hmem hrest, trivial⟩

/-- An operation that writes through anything leaves nothing clean. -/
theorem not_clobbered {k : Kernel} {m : ProvMap} (hinv : LoopInv k m)
    (hquiet : ∀ inst ∈ k.insts, ∀ u ∈ provTransfer k inst, u.Quiet m)
    (hclean : (dirtyRoots k m.prov).2 = false) : ¬ Clobbered k := by
  have hnone : ∀ inst ∈ k.insts, writeMask m.prov inst ≠ none := by
    intro inst hinst h
    obtain ⟨mask, hmask, -⟩ := dirty_of_writeMask hclean hinst
    rw [h] at hmask
    cases hmask
  rintro (⟨inst, hinst, hany⟩ | ⟨w, ⟨inst, hinst, hw⟩, hescapes⟩)
  · exact hnone inst hinst (hany.writeMask m.prov)
  · apply hnone inst hinst
    rw [hw.writeMask, unknown_of_escapes hinv hquiet hescapes]
    rfl

/-- Where requests of one memory are isolated, nothing that is loaded through
    an address in the set is written, by any thread. -/
theorem readonlyValues_sound {k : Kernel} (hssa : k.region.Ssa) {window : String → Bool}
    (hisolated : Isolated k window) {fuel : Nat} {readonly : Value → Bool}
    (h : readonlyValues k fuel = some readonly) (storage : Storage window) :
    ¬ Violates k readonly storage := by
  rintro ⟨thread, thread', s, s', a, val, val', cell, hs, hs', hread, hreadonly, hwrite,
    hval, hval'⟩
  obtain ⟨m, hm, rfl⟩ := Option.map_eq_some_iff.mp h
  obtain ⟨hinv, hquiet⟩ := quiet_of_inferProv hssa hm
  -- The load is through a value whose roots are all clean.
  obtain ⟨hclean, mask, hmask, hdisjoint⟩ : (dirtyRoots k m.prov).2 = false ∧
      ∃ mask, m.prov a = some (.roots mask) ∧ mask &&& (dirtyRoots k m.prov).1 = 0 := by
    simp only [isReadonly, Bool.and_eq_true, Bool.not_eq_true'] at hreadonly
    refine ⟨hreadonly.1, ?_⟩
    have hroots := hreadonly.2
    split at hroots
    · rename_i mask hmask
      exact ⟨mask, hmask, of_decide_eq_true hroots⟩
    · cases hroots
  have hdirty : ∀ {i}, mask.testBit i = true → (dirtyRoots k m.prov).1.testBit i ≠ true := by
    intro i hi hdirty
    have hbit := congrArg (fun n : Nat => n.testBit i) hdisjoint
    simp only [Nat.testBit_and, hi, hdirty, Bool.and_true, Nat.zero_testBit] at hbit
    cases hbit
  -- What is written has its bits dirty.
  have hwritten : ∀ w, WriteAddress k w → ∃ mask', m.prov w = some (.roots mask') ∧
      ∀ i, mask'.testBit i = true → (dirtyRoots k m.prov).1.testBit i = true := by
    rintro w ⟨inst, hinst, hw⟩
    obtain ⟨mask', hmask', hbits⟩ := dirty_of_writeMask hclean hinst
    rw [hw.writeMask] at hmask'
    refine ⟨mask', ?_, hbits⟩
    cases hp : m.prov w with
    | none =>
        rw [hp] at hmask'
        cases hmask'
    | some p =>
        rw [hp] at hmask'
        cases p with
        | unknown => cases hmask'
        | roots => exact congrArg (some ∘ Prov.roots) (Option.some.inj hmask')
  obtain ⟨result, rest, hrest, henv⟩ := hread
  have hload : LoadAddress k a :=
    ⟨result, hs.mem_insts (by rw [hrest]; exact List.mem_cons_self)⟩
  obtain ⟨p, hp, r, i, o, hid, hbit, hrequest, hobject⟩ : ∃ p, m.prov a = some p ∧
      (Prov.roots mask).Covers k m val := by
    obtain ⟨p, hp, hcovers⟩ := hs.sourced hinv hquiet a val henv
    obtain rfl := Option.some.inj (hmask.symm.trans hp)
    exact ⟨_, hp, hcovers⟩
  have hderives : Derives k a r := (hinv.names a _ hmask).derived mask r i rfl hid hbit
  -- The write is through a value with a known address, derived from a request.
  have hclobbered := not_clobbered hinv hquiet hclean
  obtain ⟨w, hw, hwenv⟩ := (hwrite.address hs').resolve_left fun h => hclobbered (.inl h)
  obtain ⟨mask', hmask', -⟩ := hwritten w hw
  obtain ⟨r', j, o', hid', hbit', hrequest', hobject'⟩ :
      (Prov.roots mask').Covers k m val' := by
    obtain ⟨p', hp', hcovers'⟩ := hs'.sourced hinv hquiet w val' hwenv
    obtain rfl := Option.some.inj (hmask'.symm.trans hp')
    exact hcovers'
  have hderives' : Derives k w r' := (hinv.names w _ hmask').derived mask' r' j rfl hid' hbit'
  have hmemory := storage.apart _ _ _ _ cell (hval o hobject) (hval' o' hobject')
  -- So a request loaded from is written through itself, and its bit dirty.
  rcases hisolated.resolve_left hclobbered a w r r' o o' hload hw hderives hderives' hrequest
    hrequest' hmemory with hescapes | ⟨w', q, p, hw', hq, ha, hwq⟩
  · rw [unknown_of_escapes hinv hquiet hescapes] at hmask
    cases hmask
  · obtain ⟨written, hwritten', hbits⟩ := hwritten w' hw'
    obtain ⟨i, hi, hi'⟩ := exists_common_bit hinv hquiet hq ha hwq hmask hwritten'
    exact hdirty hi (hbits i hi')

/-- Where every memory is requested once, requests are isolated. -/
theorem isolated_of_unique {k : Kernel} {window : String → Bool}
    (h : ∀ r r' o o', Request k r o → Request k r' o' → o.memory window = o'.memory window →
      r = r') : Isolated k window := by
  refine Or.inr fun a w r r' o o' _ hwrite ha hw hr hr' hmemory => ?_
  obtain rfl := h r r' o o' hr hr' hmemory
  exact Or.inr ⟨w, r, o, hwrite, hr, ha, hw⟩

/-- A kernel that copies an element of a module table to its second parameter,
    next to one of its first. -/
def copyKernel : Kernel where
  blocks := [
    ⟨[⟨0, .pointer⟩, ⟨1, .pointer⟩], [
      .load ⟨2, .i 32⟩ ⟨0, .pointer⟩,
      .addressOf ⟨3, .pointer⟩ "table",
      .load ⟨4, .i 32⟩ ⟨3, .pointer⟩,
      .store ⟨2, .i 32⟩ ⟨1, .pointer⟩,
      .gep ⟨5, .pointer⟩ ⟨1, .pointer⟩ (.i 32) [.constant 1],
      .store ⟨4, .i 32⟩ ⟨5, .pointer⟩,
      .other [] []]⟩]
  globals name := if name = "table" then some .global else none
  paramsGlobal := true

theorem readonlyValues_sound_copy :
    ∃ readonly, readonlyValues copyKernel 3 = some readonly ∧
      readonly ⟨0, .pointer⟩ = true ∧ readonly ⟨3, .pointer⟩ = true ∧
      ∀ storage : Storage fun _ => false, ¬ Violates copyKernel readonly storage := by
  have hssa : copyKernel.region.Ssa := by decide
  have hisolated : Isolated copyKernel fun _ => false := by
    apply isolated_of_unique
    intro r r' o o' hr hr' hmemory
    cases hr with
    | param hparam =>
        cases hr' with
        | param =>
            cases hmemory
            rfl
        | addressOf | alloca | dynShared => cases hmemory
    | addressOf h =>
        cases hr' with
        | addressOf h' => simp_all [copyKernel, Kernel.insts]
        | param | alloca | dynShared => cases hmemory
    | alloca h => simp [copyKernel, Kernel.insts] at h
    | dynShared h => simp [copyKernel, Kernel.insts] at h
  have hmarks : (readonlyValues copyKernel 3).map (fun readonly =>
      (readonly ⟨0, .pointer⟩, readonly ⟨3, .pointer⟩)) = some (true, true) := by
    decide
  obtain ⟨readonly, hreadonly, hmark⟩ := Option.map_eq_some_iff.mp hmarks
  obtain ⟨hparam, htable⟩ := Prod.mk.inj hmark
  exact ⟨readonly, hreadonly, hparam, htable, readonlyValues_sound hssa hisolated hreadonly⟩

/-! ## Two requests of one memory -/

/-- A kernel that stores to a shared tile and loads it back, through two
    `addressof` of it. -/
def tilePairKernel : Kernel where
  blocks := [
    ⟨[⟨0, .i 32⟩], [
      .addressOf ⟨1, .pointer⟩ "tile",
      .addressOf ⟨2, .pointer⟩ "tile",
      .store ⟨0, .i 32⟩ ⟨1, .pointer⟩,
      .load ⟨3, .i 32⟩ ⟨2, .pointer⟩,
      .other [] []]⟩]
  globals name := if name = "tile" then some .shared else none
  paramsGlobal := true

/-- The tile is at 256, and nothing else is anywhere. -/
def tileStorage : Storage fun _ => false where
  cells _ o cell := o = .global "tile" ∧ 256 ≤ cell ∧ cell < 512
  apart _ _ _ _ _ h h' := by rw [h.1, h'.1]

/-- The parameter, and the first `n` results of the kernel. -/
def tilePairEnv (n : Nat) : Env := fun v =>
  if v = ⟨0, .i 32⟩ then some ⟨7, none⟩
  else if v.ty = .pointer ∧ 0 < v.id ∧ v.id ≤ n then some ⟨256, some (.global "tile")⟩
  else none

theorem step_tilePair (n : Nat) (rest : List Inst) :
    Step tilePairKernel soleThread
      ⟨0, .addressOf ⟨n + 1, .pointer⟩ "tile" :: rest, tilePairEnv n⟩
      ⟨0, rest, tilePairEnv (n + 1)⟩ := by
  refine .next (s := ⟨0, _, tilePairEnv n⟩) rfl rfl (fun v hv => absurd hv List.not_mem_nil) ?_ ?_
  · intro v hv
    have hne : ¬ (v.ty = .pointer ∧ v.id = n + 1) := by
      rintro ⟨hty, hid⟩
      obtain ⟨id, ty⟩ := v
      subst hty hid
      exact hv List.mem_cons_self
    have hiff : (v.ty = .pointer ∧ 0 < v.id ∧ v.id ≤ n + 1) ↔
        (v.ty = .pointer ∧ 0 < v.id ∧ v.id ≤ n) := by
      constructor
      · rintro ⟨hty, hpos, hle⟩
        exact ⟨hty, hpos, Nat.le_of_lt_succ (Nat.lt_of_le_of_ne hle fun h => hne ⟨hty, h⟩)⟩
      · rintro ⟨hty, hpos, hle⟩
        exact ⟨hty, hpos, Nat.le_succ_of_le hle⟩
    show tilePairEnv (n + 1) v = tilePairEnv n v
    simp only [tilePairEnv, hiff]
  · intro r hr
    obtain rfl := List.mem_singleton.mp hr
    refine ⟨⟨256, some (.global "tile")⟩, ?_, ?_, rfl⟩
    · simp [tilePairEnv]
    · intro width hwidth
      obtain rfl := Option.some.inj hwidth
      decide

/-- The thread gets to the store, and past it to the load. -/
theorem reachable_tilePair :
    Reachable tilePairKernel soleThread
      ⟨0, tilePairKernel.entry.insts.drop 2, tilePairEnv 2⟩ ∧
    Reachable tilePairKernel soleThread
      ⟨0, tilePairKernel.entry.insts.drop 3, tilePairEnv 2⟩ := by
  have hentry : Reachable tilePairKernel soleThread
      ⟨0, tilePairKernel.entry.insts, tilePairEnv 0⟩ := by
    refine .entry ⟨rfl, rfl, fun p hp => ?_, fun v hv => ?_⟩
    · obtain rfl := List.mem_singleton.mp hp
      refine ⟨⟨7, none⟩, rfl, fun width hwidth => ?_, fun _ hptr => by cases hptr⟩
      obtain rfl := Option.some.inj hwidth
      decide
    · have hne : v ≠ ⟨0, .i 32⟩ := fun h => hv (h ▸ List.mem_cons_self)
      show tilePairEnv 0 v = none
      rw [tilePairEnv, if_neg hne, if_neg]
      omega
  have hstore := (hentry.step (step_tilePair 0 _)).step (step_tilePair 1 _)
  refine ⟨hstore, hstore.step (.next rfl rfl ?_ (fun _ _ => rfl) ?_)⟩
  · show ∀ v ∈ [(⟨0, .i 32⟩ : Value), ⟨1, .pointer⟩], (tilePairEnv 2 v).isSome
    decide
  · exact fun r hr => absurd hr List.not_mem_nil

/-- The load is held to be read-only, and the store writes what it reads. -/
theorem readonlyValues_two_requests : tilePairKernel.region.Ssa ∧
    ∃ readonly, readonlyValues tilePairKernel 3 = some readonly ∧
      Violates tilePairKernel readonly tileStorage := by
  have hmarks : (readonlyValues tilePairKernel 3).map (fun readonly => readonly ⟨2, .pointer⟩) =
      some true := by
    decide
  obtain ⟨readonly, hreadonly, hmark⟩ := Option.map_eq_some_iff.mp hmarks
  obtain ⟨hstore, hload⟩ := reachable_tilePair
  refine ⟨by decide, readonly, hreadonly, soleThread, soleThread, _, _, ⟨2, .pointer⟩,
    ⟨256, some (.global "tile")⟩, ⟨256, some (.global "tile")⟩, 256, hload, hstore,
    ⟨_, _, rfl, rfl⟩, hmark, .store rfl rfl, ?_, ?_⟩
  all_goals
    rintro o ⟨⟩
    exact ⟨rfl, by decide, by decide⟩

end Crabbit.Nvptx
