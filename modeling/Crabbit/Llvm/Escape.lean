/-
  Crabbit.Llvm.Escape

  Allocas whose address stays inside the function.
-/

import Crabbit.Llvm.AddrKey
import Crabbit.Lib.Worklist

namespace Crabbit.Llvm

open Crabbit.Lib (flood Flood flood_singleton)

namespace Region

variable (g : Region)

/-! ## Escape analysis -/

/-- Is the use of `value` by `user` one that keeps the address inside the
    function, and which address does it derive?  `none` when it escapes. -/
def derive (value : Value) (user : Op) : Option (List Value) :=
  match user with
  | .load _ _ => some []
  -- Escapes when the pointer is the stored value.
  | .store stored _ => if stored = value then none else some []
  -- Fine only as the base.
  | .gep r base _ _ => if base = value then some [r] else none
  | .bitcast r _ => some [r]
  | _ => none

/-- The addresses derived from `value`, over all its uses. -/
def derivedFrom (value : Value) : Option (List Value) :=
  ((g.users value).mapM (derive value)).map List.flatten

/-- Fuel for the escape search: every use pushes one address at most. -/
def usesBound : Nat := (g.ops.map fun op => op.operands.length).sum + 2

/-- The alloca's address never escapes: every value derived from it is only
    used as an address or as the base of a further one. -/
def nonescaping (alloca : Value) : Bool :=
  match flood g.derivedFrom g.usesBound [alloca] [] with
  | .finished _ => true
  | _ => false

/-- The alloca results whose address provably never escapes. -/
def nonescapingAllocas : List Value :=
  (g.ops.filterMap fun
    | .alloca r _ _ => some r
    | _ => none).filter g.nonescaping

variable {g : Region}

/-! ## What the search establishes -/

theorem derivedFrom_mem {value : Value} {next : List Value} (h : g.derivedFrom value = some next)
    {user : Op} (huser : user ∈ g.users value) :
    ∃ l, derive value user = some l ∧ ∀ v ∈ l, v ∈ next := by
  unfold derivedFrom at h
  generalize g.users value = users at h huser
  induction users generalizing next with
  | nil => exact absurd huser List.not_mem_nil
  | cons u users ih =>
    rw [List.mapM_cons] at h
    cases hu : derive value u with
    | none => simp [hu] at h
    | some l =>
      cases hrest : users.mapM (derive value) with
      | none => simp [hu, hrest] at h
      | some ls =>
        obtain rfl : next = l ++ ls.flatten := by simpa [hu, hrest] using h.symm
        rcases List.mem_cons.mp huser with rfl | huser
        · exact ⟨l, hu, fun v hv => List.mem_append_left _ hv⟩
        · obtain ⟨l', hl', hsub⟩ := ih (by rw [hrest]; rfl) huser
          exact ⟨l', hl', fun v hv => List.mem_append_right _ (hsub v hv)⟩

/-- The allocas in `N` are confined: whatever address is computed from one is
    only used as an address. -/
structure Confined (g : Region) (N : Value → Prop) : Prop where
  alloca : ∀ a, N a → g.isAlloca a = true
  uses : ∀ a, N a → ∀ v, g.rootOf v = a → ∀ op ∈ g.ops, v ∈ op.operands → derive v op ≠ none

theorem mem_nonescapingAllocas {a : Value} (h : a ∈ g.nonescapingAllocas) (hwf : g.WellFormed) :
    g.isAlloca a = true ∧ g.nonescaping a = true := by
  unfold nonescapingAllocas at h
  obtain ⟨hmem, hne⟩ := List.mem_filter.mp h
  obtain ⟨op, hop, heq⟩ := List.mem_filterMap.mp hmem
  refine ⟨?_, hne⟩
  cases op with
  | alloca r ty count =>
    obtain rfl : r = a := by simpa using heq
    exact isAlloca_iff.mpr ⟨r, ty, count, hwf.unique hop List.mem_cons_self⟩
  | _ => simp at heq

/-- The escape search is right about the allocas it keeps. -/
theorem confined_nonescapingAllocas (hwf : g.WellFormed) :
    g.Confined (· ∈ g.nonescapingAllocas) := by
  refine ⟨fun a ha => (mem_nonescapingAllocas ha hwf).1, fun a ha v hv op hop hoperand => ?_⟩
  have hne := (mem_nonescapingAllocas ha hwf).2
  unfold nonescaping at hne
  split at hne
  · rename_i result hflood
    obtain ⟨hstart, hclosed⟩ := flood_singleton hflood
    -- Everything rooted at the alloca was found, by induction up the chain.
    have hfound : ∀ n v, v.id < n → g.rootOf v = a → v ∈ result := by
      intro n
      induction n with
      | zero => omega
      | succ n ih =>
        intro v hlt hroot
        rcases rootOf_cases hwf v with ⟨r, base, ty, indices, hdef, hid, hr⟩ |
          ⟨r, arg, hdef, hid, hr⟩ | hself
        · have hbase := ih base (by omega) (hr ▸ hroot)
          obtain ⟨hop', hres⟩ := definingOp_mem hdef
          obtain rfl : v = r := List.mem_singleton.mp hres
          obtain ⟨next, hnext, hsub⟩ := hclosed base hbase
          obtain ⟨l, hl, hl'⟩ := derivedFrom_mem hnext (mem_users.mpr ⟨hop', List.mem_cons_self⟩)
          apply hsub
          apply hl'
          have : l = [v] := by simpa [derive] using hl.symm
          rw [this]
          exact List.mem_cons_self
        · have harg := ih arg (by omega) (hr ▸ hroot)
          obtain ⟨hop', hres⟩ := definingOp_mem hdef
          obtain rfl : v = r := List.mem_singleton.mp hres
          obtain ⟨next, hnext, hsub⟩ := hclosed arg harg
          obtain ⟨l, hl, hl'⟩ := derivedFrom_mem hnext (mem_users.mpr ⟨hop', List.mem_cons_self⟩)
          apply hsub
          apply hl'
          have : l = [v] := by simpa [derive] using hl.symm
          rw [this]
          exact List.mem_cons_self
        · rw [← hself, hroot]
          exact hstart
    obtain ⟨next, hnext, -⟩ := hclosed v (hfound _ v (Nat.lt_succ_self _) hv)
    obtain ⟨l, hl, -⟩ := derivedFrom_mem hnext (mem_users.mpr ⟨hop, hoperand⟩)
    rw [hl]
    exact Option.some_ne_none l
  · cases hne

end Region

end Crabbit.Llvm
