/-
  Crabbit.Nvptx.SpacesSound

  The state spaces `infer_spaces` proves are right: in every state a thread
  gets to, a value marked `global` is an address in global memory and a value
  marked `shared` one in shared memory, and no `shared` value is used where
  the raw representation is not understood.

  The loop ends in whatever order the updates are made: entries and escapes
  only climb.
-/

import Crabbit.Nvptx.Runs
import Crabbit.Nvptx.Spaces
import Mathlib.Algebra.BigOperators.Group.List.Basic
import Mathlib.Algebra.Order.BigOperators.Group.List
import Mathlib.Algebra.Order.Group.Nat

namespace Crabbit.Nvptx

open Crabbit.Lib
open Crabbit.Llvm (Value Successor GepIndex)

/-! ## Termination -/

/-- How far up an entry is. -/
def height : Option PtrSpace → Nat
  | none => 0
  | some .global | some .shared => 1
  | some .generic => 2

theorem height_le_two (space : Option PtrSpace) : height space ≤ 2 := by
  rcases space with _ | (_ | _ | _) <;> decide

/-- The value the entry of which an update may change. -/
def SpaceUpdate.target : SpaceUpdate → Value
  | .setResult result _ => result
  | .escape v => v
  | .aliasResult _ result => result
  | .joinSelect _ _ result => result
  | .joinParam _ param => param

/-- What an update may do to a map: nothing, or raise one entry. -/
def Raises (v : Value) (m : SpaceMap) (r : SpaceMap × Bool) : Prop :=
  r = (m, false) ∨ (r.2 = true ∧ height (m.spaces v) < height (r.1.spaces v) ∧
    ∀ w, w ≠ v → r.1.spaces w = m.spaces w)

namespace SpaceMap

theorem raise_raises (m : SpaceMap) (v : Value) (space : PtrSpace) :
    Raises v m (m.raise v space) := by
  unfold raise
  split
  · rename_i hnone
    refine .inr ⟨rfl, ?_, fun w hw => m.insert_of_ne hw _⟩
    simp only [insert_self, hnone]
    cases space <;> decide
  · rename_i old hold
    split
    · exact .inl rfl
    · rename_i hne
      refine .inr ⟨rfl, ?_, fun w hw => m.insert_of_ne hw _⟩
      simp only [insert_self, hold]
      cases old
      · decide
      · decide
      · exact absurd (.inr rfl) hne

theorem escape_raises (m : SpaceMap) (v : Value) : Raises v m (m.escape v) := by
  unfold escape
  split
  · rename_i h
    refine .inr ⟨rfl, ?_, fun w hw => m.insert_of_ne hw _⟩
    simp only [insert_self, h.1]
    decide
  · exact .inl rfl

end SpaceMap

theorem SpaceUpdate.apply_raises (u : SpaceUpdate) (m : SpaceMap) :
    Raises u.target m (u.apply m) := by
  cases u with
  | setResult result space => exact m.raise_raises _ _
  | escape v => exact m.escape_raises v
  | aliasResult operand result =>
      simp only [apply]
      cases m.spaces operand with
      | none => exact .inl rfl
      | some space => exact m.raise_raises _ _
  | joinSelect onTrue onFalse result =>
      simp only [apply]
      cases joinArms (m.spaces onTrue) (m.spaces onFalse) with
      | none => exact .inl rfl
      | some space => exact m.raise_raises _ _
  | joinParam arg param =>
      simp only [apply]
      cases m.spaces arg with
      | none => exact .inl rfl
      | some space => exact m.raise_raises _ _

theorem SpaceUpdate.honest (P : SpaceMap → Prop) (u : SpaceUpdate) :
    Honest P fun m => u.apply m := by
  intro m _ hflag
  rcases u.apply_raises m with h | ⟨htrue, -⟩
  · exact congrArg Prod.fst h
  · exact absurd (htrue.symm.trans hflag) (by decide)

/-- The sum of the heights of some entries. -/
def totalHeight (values : List Value) (m : SpaceMap) : Nat :=
  (values.map fun v => height (m.spaces v)).sum

theorem totalHeight_le (values : List Value) (m : SpaceMap) :
    totalHeight values m ≤ 2 * values.length := by
  induction values with
  | nil => exact Nat.le_refl _
  | cons v values ih =>
      have := height_le_two (m.spaces v)
      simp only [totalHeight, List.map_cons, List.sum_cons, List.length_cons] at ih ⊢
      omega

theorem SpaceUpdate.climbs {values : List Value} {u : SpaceUpdate} (hu : u.target ∈ values) :
    Climbs (fun _ => True) (totalHeight values) fun m => u.apply m := by
  intro m _
  show totalHeight values m ≤ totalHeight values (u.apply m).1 ∧ _
  rcases u.apply_raises m with h | ⟨-, hlt, hframe⟩
  · refine ⟨by rw [h], fun hflag => ?_⟩
    have hflag : (u.apply m).2 = true := hflag
    rw [h] at hflag
    cases hflag
  · have hsum : totalHeight values m < totalHeight values (u.apply m).1 := by
      apply List.sum_lt_sum _ _ _ ⟨u.target, hu, hlt⟩
      intro v _
      by_cases hv : v = u.target
      · rw [hv]
        exact Nat.le_of_lt hlt
      · rw [hframe v hv]
    exact ⟨Nat.le_of_lt hsum, fun _ => hsum⟩

/-- The loop ends, whatever the updates and their order. -/
theorem exists_sweeps_updates (updates : List SpaceUpdate) (m : SpaceMap) :
    ∃ m', sweeps (updates.map fun u m => u.apply m) (2 * updates.length + 1) m = some m' := by
  have hclimbs : ∀ visit ∈ updates.map fun u m => u.apply m,
      Climbs (fun _ => True) (totalHeight (updates.map SpaceUpdate.target)) visit := by
    intro visit hvisit
    obtain ⟨u, hu, rfl⟩ := List.mem_map.mp hvisit
    exact u.climbs (List.mem_map_of_mem hu)
  have hbound : ∀ m, True → totalHeight (updates.map SpaceUpdate.target) m ≤
      2 * updates.length := by
    intro m _
    have := totalHeight_le (updates.map SpaceUpdate.target) m
    rwa [List.length_map] at this
  exact exists_sweeps (fun _ _ _ _ => trivial) hclimbs hbound trivial

/-! ## What the updates keep -/

/-- Escaped values are `generic`, and `shared` values have 64 bits. -/
structure SpaceInv (m : SpaceMap) : Prop where
  forced : ∀ v, m.forced v = true → m.spaces v = some .generic
  wide : ∀ v, m.spaces v = some .shared → widthOf v.ty = some 64

/-- An update gives the `shared` mark to values of 64 bits only. -/
def SpaceUpdate.Wide : SpaceUpdate → Prop
  | .setResult result space => space = .shared → widthOf result.ty = some 64
  | .escape _ => True
  | .aliasResult operand result => widthOf operand.ty = some 64 → widthOf result.ty = some 64
  | .joinSelect onTrue onFalse result =>
      (widthOf onTrue.ty = some 64 ∨ widthOf onFalse.ty = some 64) → widthOf result.ty = some 64
  | .joinParam arg param => widthOf arg.ty = some 64 → widthOf param.ty = some 64

namespace SpaceInv

variable {m : SpaceMap}

theorem insert (h : SpaceInv m) {v : Value} {space : PtrSpace}
    (hwide : space = .shared → widthOf v.ty = some 64)
    (hforced : m.forced v = true → space = .generic) : SpaceInv (m.insert v space) := by
  constructor
  · intro w hw
    by_cases hwv : w = v
    · subst hwv
      rw [SpaceMap.insert_self, hforced hw]
    · rw [m.insert_of_ne hwv]
      exact h.forced w hw
  · intro w hw
    by_cases hwv : w = v
    · subst hwv
      rw [SpaceMap.insert_self, Option.some.injEq] at hw
      exact hwide hw
    · rw [m.insert_of_ne hwv] at hw
      exact h.wide w hw

theorem raise (h : SpaceInv m) {v : Value} {space : PtrSpace}
    (hwide : space = .shared → widthOf v.ty = some 64)
    (hforced : m.forced v = true → space = .generic) : SpaceInv (m.raise v space).1 := by
  unfold SpaceMap.raise
  split
  · exact h.insert hwide hforced
  · split
    · exact h
    · exact h.insert (fun heq => by cases heq) fun _ => rfl

theorem setResult (h : SpaceInv m) {v : Value} {space : PtrSpace}
    (hwide : space = .shared → widthOf v.ty = some 64) : SpaceInv (m.setResult v space).1 := by
  unfold SpaceMap.setResult
  split
  · exact h.raise (fun heq => by cases heq) fun _ => rfl
  · rename_i hforced
    exact h.raise hwide fun hv => absurd hv hforced

theorem escape (h : SpaceInv m) (v : Value) : SpaceInv (m.escape v).1 := by
  unfold SpaceMap.escape
  split
  · have hinsert : SpaceInv (m.insert v .generic) :=
      h.insert (fun heq => by cases heq) fun _ => rfl
    refine ⟨fun w hw => ?_, hinsert.wide⟩
    by_cases hwv : w = v
    · subst hwv
      exact m.insert_self w .generic
    · simp only [Function.update_of_ne hwv] at hw
      exact hinsert.forced w hw
  · exact h

theorem apply (h : SpaceInv m) {u : SpaceUpdate} (hu : u.Wide) : SpaceInv (u.apply m).1 := by
  cases u with
  | setResult result space => exact h.setResult hu
  | escape v => exact h.escape v
  | aliasResult operand result =>
      simp only [SpaceUpdate.apply]
      cases hop : m.spaces operand with
      | none => exact h
      | some space =>
          apply h.setResult
          rintro rfl
          exact hu (h.wide operand hop)
  | joinSelect onTrue onFalse result =>
      simp only [SpaceUpdate.apply]
      cases hjoin : joinArms (m.spaces onTrue) (m.spaces onFalse) with
      | none => exact h
      | some space =>
          apply h.setResult
          rintro rfl
          apply hu
          -- The join is `shared` only where an arm is.
          have harm : m.spaces onTrue = some .shared ∨ m.spaces onFalse = some .shared := by
            revert hjoin
            rcases m.spaces onTrue with _ | a <;> rcases m.spaces onFalse with _ | b <;>
              simp only [joinArms] <;> try split
            all_goals simp_all
          exact harm.imp (h.wide onTrue) (h.wide onFalse)
  | joinParam arg param =>
      simp only [SpaceUpdate.apply]
      cases harg : m.spaces arg with
      | none => exact h
      | some space =>
          by_cases hforced : m.forced param = true
          · -- An escaped parameter is `generic` already.
            have hgeneric : (m.raise param space).1 = m := by
              simp only [SpaceMap.raise, h.forced param hforced, or_true, if_true]
            rw [SpaceMap.raise?, hgeneric]
            exact h
          · apply h.raise _ fun hv => absurd hv hforced
            rintro rfl
            exact hu (h.wide arg harg)

end SpaceInv

theorem spaceInv_initial (k : Kernel) : SpaceInv (initialSpaces k) := by
  constructor
  · intro v h
    cases h
  · intro v h
    simp only [initialSpaces] at h
    split at h
    · split at h <;> cases h
    · cases h

/-! ## The fixpoint -/

/-- The entry of `v` is `space`, or the values of it are only known to be
    generic addresses. -/
def SpaceMap.Covers (m : SpaceMap) (v : Value) (space : PtrSpace) : Prop :=
  m.spaces v = some space ∨ m.spaces v = some .generic

namespace SpaceMap

variable {m : SpaceMap}

theorem covers_of_raise {v : Value} {space : PtrSpace} (h : m.raise v space = (m, false)) :
    m.Covers v space := by
  unfold raise at h
  split at h
  · cases congrArg Prod.snd h
  · rename_i old hold
    split at h
    · rename_i hcases
      rcases hcases with rfl | rfl
      · exact .inl hold
      · exact .inr hold
    · cases congrArg Prod.snd h

theorem covers_of_setResult {v : Value} {space : PtrSpace}
    (h : m.setResult v space = (m, false)) : m.Covers v space := by
  have hcovers := covers_of_raise h
  split at hcovers
  · exact .inr (hcovers.elim id id)
  · exact hcovers

end SpaceMap

/-- Entries only climb. -/
theorem SpaceUpdate.covers_apply {m : SpaceMap} {v : Value} {space : PtrSpace}
    (h : m.Covers v space) (u : SpaceUpdate) : (u.apply m).1.Covers v space := by
  rcases u.apply_raises m with hsame | ⟨-, hlt, hframe⟩
  · rwa [hsame]
  · by_cases hv : v = u.target
    · -- The entry was there, so what is above it is `generic`.
      subst hv
      have hone : 1 ≤ height (m.spaces u.target) := by
        rcases h with h | h <;> rw [h]
        · cases space <;> decide
        · decide
      have htwo : 2 ≤ height ((u.apply m).1.spaces u.target) := by omega
      refine .inr ?_
      revert htwo
      rcases (u.apply m).1.spaces u.target with _ | (_ | _ | _) <;> simp [height]
    · rw [SpaceMap.Covers, hframe v hv]
      exact h

/-- What it says of a map that an update does not change it. -/
def SpaceUpdate.Quiet (m : SpaceMap) : SpaceUpdate → Prop
  | .setResult result space => m.Covers result space
  | .escape v => m.spaces v ≠ some .shared
  | .aliasResult operand result => ∀ space, m.spaces operand = some space → m.Covers result space
  | .joinSelect onTrue onFalse result =>
      ∀ space, joinArms (m.spaces onTrue) (m.spaces onFalse) = some space → m.Covers result space
  | .joinParam arg param => ∀ space, m.spaces arg = some space → m.Covers param space

theorem SpaceUpdate.quiet {m : SpaceMap} (hinv : SpaceInv m) {u : SpaceUpdate}
    (h : u.apply m = (m, false)) : u.Quiet m := by
  cases u with
  | setResult result space => exact SpaceMap.covers_of_setResult h
  | escape v =>
      intro hshared
      simp only [apply, SpaceMap.escape] at h
      split at h
      · cases congrArg Prod.snd h
      · rename_i hforced
        rw [not_and, Bool.not_eq_false] at hforced
        have hgeneric := hinv.forced v (hforced hshared)
        rw [hshared] at hgeneric
        cases hgeneric
  | aliasResult operand result =>
      intro space hspace
      simp only [apply, hspace] at h
      exact SpaceMap.covers_of_setResult h
  | joinSelect onTrue onFalse result =>
      intro space hspace
      simp only [apply, hspace] at h
      exact SpaceMap.covers_of_setResult h
  | joinParam arg param =>
      intro space hspace
      simp only [apply, hspace] at h
      exact SpaceMap.covers_of_raise h

/-! ## Well-typed updates -/

theorem widthOf_of_intWidth {ty : Llvm.Ty} {width : Nat} (h : ty.intWidth = some width) :
    widthOf ty = some width := by
  cases ty <;> first | exact h | cases h

theorem wide_branchEdge {k : Kernel} {target : Successor}
    (h : target.args.map Value.ty = (k.block target.dest).params.map Value.ty) :
    ∀ u ∈ branchEdge k target, u.Wide := by
  intro u hu
  obtain ⟨⟨arg, param⟩, hmem, rfl⟩ := List.mem_map.mp hu
  intro hwide
  have hty : arg.ty = param.ty := by
    obtain ⟨i, hi, hget⟩ := List.getElem_of_mem hmem
    rw [List.getElem_zip, Prod.mk.injEq] at hget
    rw [List.length_zip] at hi
    have htys := congrArg (fun l : List Llvm.Ty => l[i]?) h
    simp only [List.getElem?_map] at htys
    rw [List.getElem?_eq_getElem (by omega), List.getElem?_eq_getElem (by omega)] at htys
    simpa [hget.1, hget.2] using htys
  rwa [← hty]

theorem wide_transfer {k : Kernel} {inst : Inst} (htyped : inst.Typed k) :
    ∀ u ∈ transfer k inst, u.Wide := by
  have hescapes : ∀ vs : List Value, ∀ u ∈ vs.map SpaceUpdate.escape, u.Wide := by
    intro vs u hu
    obtain ⟨v, -, rfl⟩ := List.mem_map.mp hu
    exact trivial
  have hgeneric : ∀ rs : List Value,
      ∀ u ∈ rs.map fun r => SpaceUpdate.setResult r .generic, u.Wide := by
    intro rs u hu
    obtain ⟨r, -, rfl⟩ := List.mem_map.mp hu
    exact fun heq => by cases heq
  have hboth : ∀ vs rs : List Value, ∀ u ∈ vs.map SpaceUpdate.escape ++
      rs.map fun r => SpaceUpdate.setResult r .generic, u.Wide := fun vs rs u hu =>
    (List.mem_append.mp hu).elim (hescapes vs u) (hgeneric rs u)
  cases inst
  case addressOf r name =>
    intro u hu
    obtain rfl := List.mem_singleton.mp hu
    intro _
    rw [show r.ty = .pointer from htyped]
    rfl
  case gep r base ty indices =>
    intro u hu
    rcases List.mem_cons.mp hu with rfl | hu
    · intro _
      rw [htyped.1]
      rfl
    · exact hescapes _ u hu
  case cast kind r operand =>
    intro u hu
    obtain rfl := List.mem_singleton.mp hu
    intro hwide
    exact (show widthOf r.ty = widthOf operand.ty from htyped).trans hwide
  case select r cond onTrue onFalse =>
    intro u hu
    obtain rfl := List.mem_singleton.mp hu
    rintro (hwide | hwide)
    · rwa [htyped.2.1] at hwide
    · rwa [htyped.2.2] at hwide
  case load r address =>
    intro u hu
    obtain rfl := List.mem_singleton.mp hu
    exact fun heq => by cases heq
  case store value address =>
    intro u hu
    obtain rfl := List.mem_singleton.mp hu
    exact trivial
  case br target => exact wide_branchEdge htyped
  case condBr cond onTrue onFalse =>
    intro u hu
    rcases List.mem_append.mp hu with hu | hu
    · exact wide_branchEdge htyped.2.1 u hu
    · exact wide_branchEdge htyped.2.2 u hu
  case call rs callee operands =>
    intro u hu
    rcases List.mem_append.mp hu with hu | hu
    · exact hescapes _ u hu
    · obtain ⟨r, hr, rfl⟩ := List.mem_map.mp hu
      intro hshared
      apply htyped.1 _ r hr
      unfold callSpace at hshared
      split at hshared
      · assumption
      · cases hshared
  all_goals exact hboth _ _

/-- What the loop returns is a fixpoint of every update of the body. -/
theorem quiet_of_sweeps {k : Kernel} (htyped : k.Typed) {fuel : Nat} {m : SpaceMap}
    (h : sweeps ((spaceUpdates k).map fun u m => u.apply m) fuel (initialSpaces k) = some m) :
    SpaceInv m ∧ (∀ inst ∈ k.insts, ∀ u ∈ transfer k inst, u.Quiet m) ∧
      ∀ v, initialSpaces k |>.spaces v |>.elim True (m.Covers v) := by
  have hupdate : ∀ visit ∈ (spaceUpdates k).map fun u m => u.apply m,
      ∃ inst ∈ k.insts, ∃ u ∈ transfer k inst, visit = fun m => u.apply m := by
    intro visit hvisit
    obtain ⟨u, hu, rfl⟩ := List.mem_map.mp hvisit
    obtain ⟨inst, hinst, hu⟩ := List.mem_flatMap.mp hu
    exact ⟨inst, hinst, u, hu, rfl⟩
  have hkeeps : ∀ visit ∈ (spaceUpdates k).map fun u m => u.apply m, Keeps SpaceInv visit := by
    intro visit hvisit s hs
    obtain ⟨inst, hinst, u, hu, rfl⟩ := hupdate visit hvisit
    exact hs.apply (wide_transfer (htyped inst hinst) u hu)
  have hinv : SpaceInv m := sweeps_keeps hkeeps (spaceInv_initial k) h
  refine ⟨hinv, fun inst hinst u hu => ?_, fun v => ?_⟩
  · have hhonest : ∀ visit ∈ (spaceUpdates k).map fun u m => u.apply m,
        Honest SpaceInv visit := by
      intro visit hvisit
      obtain ⟨_, -, u, -, rfl⟩ := hupdate visit hvisit
      exact u.honest SpaceInv
    have hmem : (fun m => SpaceUpdate.apply m u) ∈ (spaceUpdates k).map fun u m => u.apply m :=
      List.mem_map.mpr ⟨u, List.mem_flatMap_of_mem hinst hu, rfl⟩
    exact SpaceUpdate.quiet hinv
      (sweeps_fixed hkeeps hhonest (spaceInv_initial k) h _ hmem)
  · cases hspace : (initialSpaces k).spaces v with
    | none => exact trivial
    | some space =>
        -- Entries only climb, so those of the parameters stay above their first.
        have hcovers : ∀ visit ∈ (spaceUpdates k).map fun u m => u.apply m,
            Keeps (fun m => m.Covers v space) visit := by
          intro visit hvisit s hs
          obtain ⟨_, -, u, -, rfl⟩ := hupdate visit hvisit
          exact SpaceUpdate.covers_apply hs u
        have hfirst : (initialSpaces k).Covers v space := .inl hspace
        have hlast : m.Covers v space :=
          sweeps_keeps (P := fun m => m.Covers v space) hcovers hfirst h
        exact hlast

/-! ## Runs -/

/-- The window an object is in; a stack slot is in neither. -/
def window (k : Kernel) : Object → Option GlobalSpace
  | .param _ => some .global
  | .global name => k.globals name
  | .dynShared => some .shared
  | .slot _ => none

/-- The value is an address in the window. -/
def InWindow (k : Kernel) (val : Val) (space : GlobalSpace) : Prop :=
  ∃ object, val.object = some object ∧ window k object = some space

/-- What a mark says of a value. -/
def PtrSpace.Holds (k : Kernel) (val : Val) : PtrSpace → Prop
  | .global => InWindow k val .global
  | .shared => InWindow k val .shared
  | .generic => True

/-- The value has an entry, and is as the entry says. -/
def Marked (k : Kernel) (m : SpaceMap) (v : Value) (val : Val) : Prop :=
  ∃ space, m.spaces v = some space ∧ space.Holds k val

theorem SpaceMap.Covers.marked {k : Kernel} {m : SpaceMap} {v : Value} {space : PtrSpace}
    {val : Val} (h : m.Covers v space) (hval : space.Holds k val) : Marked k m v val :=
  h.elim (fun hspace => ⟨space, hspace, hval⟩) fun hspace => ⟨.generic, hspace, trivial⟩

/-- The results of an operation are as the fixpoint marks them. -/
theorem marked_result {k : Kernel} {thread : Thread} {m : SpaceMap} {env : Env} {inst : Inst}
    (hquiet : ∀ u ∈ transfer k inst, u.Quiet m)
    (henv : ∀ v val, env v = some val → Marked k m v val) {r : Value} (hr : r ∈ inst.results)
    {val : Val} (hval : Yields thread env inst r val)
    (hoperands : ∀ v ∈ inst.operands, (env v).isSome) : Marked k m r val := by
  -- Whatever the operation, a `generic` result is marked rightly.
  have hgeneric : SpaceUpdate.setResult r .generic ∈ transfer k inst → Marked k m r val :=
    fun hu => SpaceMap.Covers.marked (hquiet _ hu) trivial
  have halias : ∀ v, SpaceUpdate.aliasResult v r ∈ transfer k inst →
      (∃ b, env v = some b ∧ val.object = b.object) → Marked k m r val := by
    rintro v hu ⟨b, hb, hobject⟩
    obtain ⟨space, hspace, hholds⟩ := henv v b hb
    refine SpaceMap.Covers.marked (hquiet _ hu space hspace) ?_
    cases space with
    | generic => exact trivial
    | global => exact hholds.imp fun o ho => ⟨hobject.trans ho.1, ho.2⟩
    | shared => exact hholds.imp fun o ho => ⟨hobject.trans ho.1, ho.2⟩
  cases inst
  case addressOf result name =>
    obtain rfl := List.mem_singleton.mp hr
    refine SpaceMap.Covers.marked (hquiet _ List.mem_cons_self) ?_
    have hobject : val.object = some (.global name) := hval
    unfold spaceOfGlobal
    split
    · rename_i hglobal
      exact ⟨_, hobject, hglobal⟩
    · rename_i hglobal
      exact ⟨_, hobject, hglobal⟩
    · exact trivial
  case gep result base ty indices =>
    obtain rfl := List.mem_singleton.mp hr
    obtain ⟨b, offset, hb, -, hobject, -⟩ := hval
    exact halias base List.mem_cons_self ⟨b, hb, hobject⟩
  case cast kind result operand =>
    obtain rfl := List.mem_singleton.mp hr
    exact halias operand List.mem_cons_self ⟨val, hval, rfl⟩
  case select result cond onTrue onFalse =>
    obtain rfl := List.mem_singleton.mp hr
    have hsome : ∀ v ∈ [cond, onTrue, onFalse], ∃ space, m.spaces v = some space := by
      intro v hv
      obtain ⟨b, hb⟩ := Option.isSome_iff_exists.mp (hoperands v hv)
      exact (henv v b hb).imp fun _ h => h.1
    obtain ⟨a, ha⟩ := hsome onTrue (by simp)
    obtain ⟨b, hb⟩ := hsome onFalse (by simp)
    obtain ⟨space, hspace, hholds⟩ := henv _ val hval
    have hcovers := hquiet (.joinSelect onTrue onFalse r) List.mem_cons_self
    simp only [SpaceUpdate.Quiet, ha, hb, joinArms] at hcovers
    by_cases hab : a = b
    · -- Both arms are marked alike, the chosen one among them.
      subst hab
      have hchosen : space = a := by
        split at hspace
        · exact Option.some.inj (hspace.symm.trans hb)
        · exact Option.some.inj (hspace.symm.trans ha)
      subst hchosen
      exact SpaceMap.Covers.marked (hcovers _ (if_pos rfl)) hholds
    · exact SpaceMap.Covers.marked (hcovers .generic (if_neg hab)) trivial
  case call rs callee operands =>
    have hu : SpaceUpdate.setResult r (callSpace callee) ∈
        transfer k (.call rs callee operands) :=
      List.mem_append_right _ (List.mem_map_of_mem hr)
    refine SpaceMap.Covers.marked (hquiet _ hu) ?_
    unfold callSpace
    split
    · rename_i hdyn
      exact ⟨.dynShared, hval.2 hdyn, rfl⟩
    · exact trivial
  case store | br | condBr => exact absurd hr List.not_mem_nil
  case load result address =>
    obtain rfl := List.mem_singleton.mp hr
    exact hgeneric List.mem_cons_self
  all_goals
    exact hgeneric (List.mem_append_right _
      (List.mem_map_of_mem (f := fun r => SpaceUpdate.setResult r .generic) hr))

theorem joinParam_mem {k : Kernel} {inst : Inst} {target : Successor} (h : target ∈ inst.succs)
    {arg param : Value} (hzip : (arg, param) ∈ target.args.zip (k.block target.dest).params) :
    SpaceUpdate.joinParam arg param ∈ transfer k inst := by
  have hedge : SpaceUpdate.joinParam arg param ∈ branchEdge k target :=
    List.mem_map.mpr ⟨(arg, param), hzip, rfl⟩
  cases inst
  case br target' =>
    obtain rfl := List.mem_singleton.mp h
    exact hedge
  case condBr cond onTrue onFalse =>
    rcases List.mem_cons.mp h with rfl | h
    · exact List.mem_append_left _ hedge
    · obtain rfl := List.mem_singleton.mp h
      exact List.mem_append_right _ hedge
  all_goals exact absurd h List.not_mem_nil

/-- Every value a thread computes is as the fixpoint marks it. -/
theorem Reachable.marked {k : Kernel} {thread : Thread} {m : SpaceMap}
    (hquiet : ∀ inst ∈ k.insts, ∀ u ∈ transfer k inst, u.Quiet m)
    (hinitial : ∀ v, initialSpaces k |>.spaces v |>.elim True (m.Covers v))
    {s : State} (h : Reachable k thread s) :
    ∀ v val, s.env v = some val → Marked k m v val := by
  induction h with
  | entry h =>
      intro v val hv
      by_cases hp : v ∈ k.entry.params
      · have hcovers := hinitial v
        simp only [initialSpaces, if_pos hp, Option.elim_some] at hcovers
        refine hcovers.marked ?_
        obtain ⟨val', hval', -, hobject⟩ := h.params v hp
        obtain rfl := Option.some.inj (hval'.symm.trans hv)
        split
        · rename_i hptr
          exact ⟨_, hobject hptr.1 hptr.2, rfl⟩
        · exact trivial
      · rw [h.others v hp] at hv
        cases hv
  | @step s t h hstep ih =>
      cases hstep with
      | @next inst rest env hrest hsuccs hoperands hframe hresults =>
          have hinst : inst ∈ k.insts := h.mem_insts (by rw [hrest]; exact List.mem_cons_self)
          intro v val hv
          by_cases hres : v ∈ inst.results
          · obtain ⟨val', hval', -, hyields⟩ := hresults v hres
            obtain rfl := Option.some.inj (hval'.symm.trans hv)
            exact marked_result (hquiet inst hinst) ih hres hyields hoperands
          · exact ih v val ((hframe v hres).symm.trans hv)
      | @jump inst rest target env hrest htaken htarget hoperands hframe hparams =>
          have hinst : inst ∈ k.insts := h.mem_insts (by rw [hrest]; exact List.mem_cons_self)
          intro v val hv
          by_cases hres : v ∈ (k.block target.dest).params
          · obtain ⟨arg, hzip, harg⟩ := exists_arg hparams hres
            have hu : SpaceUpdate.joinParam arg v ∈ transfer k inst :=
              joinParam_mem htarget hzip
            obtain ⟨space, hspace, hholds⟩ := ih arg val (harg.symm.trans hv)
            exact SpaceMap.Covers.marked (hquiet inst hinst _ hu space hspace) hholds
          · exact ih v val ((hframe v hres).symm.trans hv)

/-! ## The analysis -/

/-- The operands an operation reads as generic addresses or plain numbers: the
    qualified accesses, the pointer arithmetic, the casts, the selects and the
    branches understand the raw shared representation of the others. -/
def genericUses : Inst → List Value
  | .gep _ _ _ indices => indices.flatMap GepIndex.operands
  | .cast .. | .load .. | .br _ => []
  | .store value _ => [value]
  | .atomicRmw _ _ values | .atomicCmpxchg _ _ values => values
  | .select _ cond _ _ => [cond]
  | .condBr cond _ _ => [cond]
  | .call _ callee operands =>
      if callMemEffect (canonicalName callee) = .atomicPtrArg then operands.drop 1 else operands
  | inst => inst.operands

theorem callMemEffect_eq_atomicPtrArg {canonical : String} :
    callMemEffect canonical = .atomicPtrArg ↔ canonical ∈ ATOMIC_INTRINSICS := by
  unfold callMemEffect
  split
  · simp only [*]
  · split <;> simp only [*, reduceCtorEq]

/-- No `shared` value is used where a generic address or a number is read. -/
theorem not_shared_of_genericUse {k : Kernel} {m : SpaceMap} (hinv : SpaceInv m) {inst : Inst}
    (htyped : inst.Typed k) (hquiet : ∀ u ∈ transfer k inst, u.Quiet m) {v : Value}
    (hv : v ∈ genericUses inst) : m.spaces v ≠ some .shared := by
  have hescape : SpaceUpdate.escape v ∈ transfer k inst → m.spaces v ≠ some .shared := fun hu =>
    hquiet _ hu
  -- A condition has one bit, and no address fits in it.
  have hcond : v.ty.intWidth = some 1 → m.spaces v ≠ some .shared := by
    intro hone hshared
    have h64 := hinv.wide v hshared
    rw [widthOf_of_intWidth hone] at h64
    cases h64
  cases inst
  case gep r base ty indices =>
    exact hescape (List.mem_cons_of_mem _ (List.mem_map_of_mem hv))
  case cast | load | br => exact absurd hv List.not_mem_nil
  case store value address =>
    obtain rfl := List.mem_singleton.mp hv
    exact hescape List.mem_cons_self
  case select r cond onTrue onFalse =>
    obtain rfl := List.mem_singleton.mp hv
    exact hcond htyped.1
  case condBr cond onTrue onFalse =>
    obtain rfl := List.mem_singleton.mp hv
    exact hcond htyped.1
  case call rs callee operands =>
    apply hescape
    apply List.mem_append_left
    apply List.mem_map_of_mem
    simp only [genericUses, callMemEffect_eq_atomicPtrArg] at hv
    simpa only [escapingArgs, isAtomicCall, decide_eq_true_eq] using hv
  all_goals exact hescape (List.mem_append_left _ (List.mem_map_of_mem hv))

/-- **Pointer state spaces are sound.** The loop of `infer_spaces` ends,
    whatever the order its updates are made in.  In the map it returns no
    `shared` value is used where the raw representation is not understood, and
    in every state a thread gets to a value marked `global` is an address in
    global memory, a value marked `shared` one in shared memory. -/
theorem inferSpaces_sound {k : Kernel} (htyped : k.Typed) :
    (∀ updates : List SpaceUpdate, updates.Perm (spaceUpdates k) → ∃ fuel m,
      sweeps (updates.map fun u m => u.apply m) fuel (initialSpaces k) = some m) ∧
    (∃ spaces, inferSpaces k (2 * (spaceUpdates k).length + 1) = some spaces) ∧
    ∀ fuel spaces, inferSpaces k fuel = some spaces →
      (∀ inst ∈ k.insts, ∀ v ∈ genericUses inst, spaces v ≠ some .shared) ∧
      ∀ thread s, Reachable k thread s → ∀ v val, s.env v = some val →
        (spaces v = some .global → InWindow k val .global) ∧
        (spaces v = some .shared → InWindow k val .shared) := by
  refine ⟨fun updates _ => ⟨_, exists_sweeps_updates updates _⟩, ?_, ?_⟩
  · obtain ⟨m, hm⟩ := exists_sweeps_updates (spaceUpdates k) (initialSpaces k)
    exact ⟨m.spaces, by rw [inferSpaces, hm]; rfl⟩
  · intro fuel spaces h
    obtain ⟨m, hm, rfl⟩ := Option.map_eq_some_iff.mp h
    obtain ⟨hinv, hquiet, hinitial⟩ := quiet_of_sweeps htyped hm
    refine ⟨fun inst hinst v hv => ?_, fun thread s hs v val hv => ?_⟩
    · exact not_shared_of_genericUse hinv (htyped inst hinst) (hquiet inst hinst) hv
    · obtain ⟨space, hspace, hholds⟩ := hs.marked hquiet hinitial v val hv
      constructor
      · intro hglobal
        obtain rfl := Option.some.inj (hspace.symm.trans hglobal)
        exact hholds
      · intro hshared
        obtain rfl := Option.some.inj (hspace.symm.trans hshared)
        exact hholds

/-- A kernel that walks a shared tile in a loop and stores what it reads to
    its parameter. -/
def tileKernel : Kernel where
  blocks := [
    ⟨[⟨0, .pointer⟩], [
      .addressOf ⟨1, .pointer⟩ "tile",
      .br ⟨1, [⟨1, .pointer⟩]⟩]⟩,
    ⟨[⟨2, .pointer⟩], [
      .load ⟨3, .i 32⟩ ⟨2, .pointer⟩,
      .store ⟨3, .i 32⟩ ⟨0, .pointer⟩,
      .gep ⟨4, .pointer⟩ ⟨2, .pointer⟩ (.i 32) [.constant 1],
      .other [⟨5, .i 1⟩] [⟨3, .i 32⟩],
      .condBr ⟨5, .i 1⟩ ⟨1, [⟨4, .pointer⟩]⟩ ⟨2, []⟩]⟩,
    ⟨[], [.other [] []]⟩]
  globals name := if name = "tile" then some .shared else none
  paramsGlobal := true

theorem inferSpaces_sound_tile :
    ∃ spaces, inferSpaces tileKernel 11 = some spaces ∧ spaces ⟨2, .pointer⟩ = some .shared ∧
      ∀ thread s, Reachable tileKernel thread s → ∀ val, s.env ⟨2, .pointer⟩ = some val →
        InWindow tileKernel val .shared := by
  have htyped : tileKernel.Typed := by decide
  obtain ⟨-, -, hsound⟩ := inferSpaces_sound htyped
  have hshared : (inferSpaces tileKernel 11).map (fun spaces => spaces ⟨2, .pointer⟩) =
      some (some .shared) := by
    decide
  obtain ⟨spaces, hspaces, hmark⟩ := Option.map_eq_some_iff.mp hshared
  exact ⟨spaces, hspaces, hmark, fun thread s hs val hval =>
    ((hsound 11 spaces hspaces).2 thread s hs _ val hval).2 hmark⟩

end Crabbit.Nvptx
