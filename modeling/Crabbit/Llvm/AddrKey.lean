/-
  Crabbit.Llvm.AddrKey

  Symbolic addresses: what the memory passes know about an address from the
  way it is computed.
-/

import Crabbit.Llvm.Function

namespace Crabbit.Llvm

inductive IdxKey where
  | const (c : Nat)
  | val (v : Value)
  deriving DecidableEq

/-- Structural address identity: the SSA value itself, seen through bitcasts,
    with GEPs compared by base, element type and indices. -/
inductive AddrKey where
  | root (v : Value)
  | gep (base : AddrKey) (ty : Ty) (indices : List IdxKey)
  deriving DecidableEq

def GepIndex.key : GepIndex → IdxKey
  | .constant c => .const c
  | .value v => .val v

/-- The base SSA value a key is rooted at. -/
def keyRoot : AddrKey → Value
  | .root v => v
  | .gep base _ _ => keyRoot base

namespace Region

variable (g : Region)

/-- `addr_key`, for at most `fuel` steps up the chain of address
    computations. -/
def addrKeyFrom : Nat → Value → AddrKey
  | 0, addr => .root addr
  | fuel + 1, addr =>
    match g.definingOp addr with
    | some (.gep _ base ty indices) => .gep (addrKeyFrom fuel base) ty (indices.map GepIndex.key)
    | some (.bitcast _ arg) => addrKeyFrom fuel arg
    | _ => .root addr

/-- The key of an address; the chain is no longer than the address's
    number. -/
def addrKey (addr : Value) : AddrKey := g.addrKeyFrom (addr.id + 1) addr

/-- The value an address is computed from. -/
def rootOf (v : Value) : Value := keyRoot (g.addrKey v)

def isAlloca (v : Value) : Bool :=
  match g.definingOp v with
  | some (.alloca ..) => true
  | _ => false

variable {g : Region}

/-- More fuel than the address's number changes nothing. -/
theorem addrKeyFrom_stable (h : g.WellFormed) {n m : Nat} {v : Value} (hn : v.id < n)
    (hm : v.id < m) : g.addrKeyFrom n v = g.addrKeyFrom m v := by
  induction n generalizing m v with
  | zero => omega
  | succ n ih =>
    cases m with
    | zero => omega
    | succ m =>
      rw [addrKeyFrom, addrKeyFrom]
      cases hdef : g.definingOp v with
      | none => rfl
      | some op =>
        obtain ⟨hop, hres⟩ := definingOp_mem hdef
        have hchain := h.chain op hop
        cases op with
        | gep r base ty indices =>
          obtain rfl : v = r := List.mem_singleton.mp hres
          have hlt : base.id < v.id := of_decide_eq_true hchain
          simp only
          rw [ih (m := m) (by omega) (by omega)]
        | bitcast r arg =>
          obtain rfl : v = r := List.mem_singleton.mp hres
          have hlt : arg.id < v.id := of_decide_eq_true hchain
          exact ih (by omega) (by omega)
        | _ => rfl

theorem addrKey_gep (h : g.WellFormed) {v r base : Value} {ty : Ty} {indices : List GepIndex}
    (hdef : g.definingOp v = some (.gep r base ty indices)) :
    g.addrKey v = .gep (g.addrKey base) ty (indices.map GepIndex.key) := by
  obtain ⟨hop, hres⟩ := definingOp_mem hdef
  obtain rfl : v = r := List.mem_singleton.mp hres
  have hlt : base.id < v.id := of_decide_eq_true (h.chain _ hop)
  unfold addrKey
  rw [addrKeyFrom, hdef]
  simp only
  rw [addrKeyFrom_stable h hlt (Nat.lt_succ_self _)]

theorem addrKey_bitcast (h : g.WellFormed) {v r arg : Value}
    (hdef : g.definingOp v = some (.bitcast r arg)) : g.addrKey v = g.addrKey arg := by
  obtain ⟨hop, hres⟩ := definingOp_mem hdef
  obtain rfl : v = r := List.mem_singleton.mp hres
  have hlt : arg.id < v.id := of_decide_eq_true (h.chain _ hop)
  unfold addrKey
  rw [addrKeyFrom, hdef]
  exact addrKeyFrom_stable h hlt (Nat.lt_succ_self _)

theorem rootOf_gep (h : g.WellFormed) {v r base : Value} {ty : Ty} {indices : List GepIndex}
    (hdef : g.definingOp v = some (.gep r base ty indices)) : g.rootOf v = g.rootOf base := by
  unfold rootOf
  rw [addrKey_gep h hdef]
  rfl

theorem rootOf_bitcast (h : g.WellFormed) {v r arg : Value}
    (hdef : g.definingOp v = some (.bitcast r arg)) : g.rootOf v = g.rootOf arg := by
  unfold rootOf
  rw [addrKey_bitcast h hdef]

/-- Every other value is its own root. -/
theorem rootOf_self {v : Value}
    (hgep : ∀ r base ty indices, g.definingOp v ≠ some (.gep r base ty indices))
    (hcast : ∀ r arg, g.definingOp v ≠ some (.bitcast r arg)) : g.rootOf v = v := by
  unfold rootOf addrKey
  rw [addrKeyFrom]
  split
  · exact absurd ‹_› (hgep _ _ _ _)
  · exact absurd ‹_› (hcast _ _)
  · rfl

/-- A root is its own root, and is followed down the chain. -/
theorem rootOf_cases (h : g.WellFormed) (v : Value) :
    (∃ r base ty indices, g.definingOp v = some (.gep r base ty indices) ∧
      base.id < v.id ∧ g.rootOf v = g.rootOf base) ∨
    (∃ r arg, g.definingOp v = some (.bitcast r arg) ∧ arg.id < v.id ∧
      g.rootOf v = g.rootOf arg) ∨
    g.rootOf v = v := by
  by_cases hgep : ∃ r base ty indices, g.definingOp v = some (.gep r base ty indices)
  · obtain ⟨r, base, ty, indices, hdef⟩ := hgep
    obtain ⟨hop, hres⟩ := definingOp_mem hdef
    have hv : v = r := List.mem_singleton.mp hres
    have hlt : base.id < r.id := of_decide_eq_true (h.chain _ hop)
    exact Or.inl ⟨r, base, ty, indices, hdef, hv ▸ hlt, rootOf_gep h hdef⟩
  by_cases hcast : ∃ r arg, g.definingOp v = some (.bitcast r arg)
  · obtain ⟨r, arg, hdef⟩ := hcast
    obtain ⟨hop, hres⟩ := definingOp_mem hdef
    have hv : v = r := List.mem_singleton.mp hres
    have hlt : arg.id < r.id := of_decide_eq_true (h.chain _ hop)
    exact Or.inr (Or.inl ⟨r, arg, hdef, hv ▸ hlt, rootOf_bitcast h hdef⟩)
  · refine Or.inr (Or.inr (rootOf_self ?_ ?_))
    · exact fun r base ty indices hdef => hgep ⟨r, base, ty, indices, hdef⟩
    · exact fun r arg hdef => hcast ⟨r, arg, hdef⟩

theorem isAlloca_iff {v : Value} :
    g.isAlloca v = true ↔ ∃ r ty count, g.definingOp v = some (.alloca r ty count) := by
  unfold isAlloca
  constructor
  · intro h
    split at h
    · exact ⟨_, _, _, ‹_›⟩
    · cases h
  · rintro ⟨r, ty, count, hdef⟩
    rw [hdef]

end Region

end Crabbit.Llvm
