/-
  Crabbit.Llvm.Confinement

  Where pointers to confined allocas can be during an execution: only in the
  values computed from the alloca, never in memory, so that no call can reach
  them.
-/

import Crabbit.Llvm.Escape
import Crabbit.Llvm.Memory

namespace Crabbit.Llvm

namespace Region

variable {g g' : Region}

/-! ## Owners -/

/-- `owner` says from which alloca a value's address is computed, where that is
    known, and knows it for every address computed from an alloca in `N`; those
    are only used as addresses. -/
structure Owners (g : Region) (owner : Value → Option Value) (N : Value → Prop) : Prop where
  alloca : ∀ {r ty count}, Op.alloca r ty count ∈ g.ops →
    (∀ a, owner r = some a → a = r) ∧ (N r → owner r = some r)
  gep : ∀ {r base ty indices}, Op.gep r base ty indices ∈ g.ops → owner r = owner base
  bitcast : ∀ {r arg}, Op.bitcast r arg ∈ g.ops → owner r = owner arg
  load : ∀ {r address}, Op.load r address ∈ g.ops → owner r = none
  generic : ∀ {id attrs results operands succs},
    Op.generic id attrs results operands succs ∈ g.ops → ∀ v ∈ results, owner v = none
  params : ∀ b, ∀ v ∈ (g.block b).params, owner v = none
  uses : ∀ op ∈ g.ops, ∀ v ∈ op.operands, ∀ a, owner v = some a → N a → derive v op ≠ none

/-! ## Confinement along an execution -/

/-- What holds at every point of an execution: pointers are into regions that
    exist, a value with an owner points into a region of it, and a pointer to
    a private region is only held by values of that owner, never by memory. -/
structure Confines (owner : Value → Option Value) (N : Value → Prop) (isGlobal : Nat → Prop)
    (env : Vals) (m : Mem) : Prop where
  env_exists : ∀ v x r, env v = some x → Mentions x r → m.Exists r
  mem_bounded : m.Bounded
  globals : ∀ n, isGlobal n → n < m.next
  rooted : ∀ v x a, env v = some x → owner v = some a → ∃ n o, x = pointer (.slot a n) o
  env_private : ∀ v x a n, env v = some x → Mentions x (.slot a n) → N a → owner v = some a
  mem_private : ∀ r o r' o' i, m.bytes r o = .fragment r' o' i → ¬ Private N r'

namespace Confines

variable {M : Machine} {owner : Value → Option Value} {N : Value → Prop} {isGlobal : Nat → Prop}
  {env : Vals} {m : Mem}

/-- Defining a value. -/
theorem define (h : Confines owner N isGlobal env m) {v : Value} {x : Val}
    (hexists : ∀ r, Mentions x r → m.Exists r)
    (hrooted : ∀ a, owner v = some a → ∃ n o, x = pointer (.slot a n) o)
    (hprivate : ∀ a n, Mentions x (.slot a n) → N a → owner v = some a) :
    Confines owner N isGlobal (Function.update env v (some x)) m := by
  have hcases : ∀ w y, Function.update env v (some x) w = some y →
      (w = v ∧ y = x) ∨ env w = some y := by
    intro w y hw
    by_cases hwv : w = v
    · subst hwv
      rw [Function.update_self] at hw
      exact Or.inl ⟨rfl, (Option.some.inj hw).symm⟩
    · rw [Function.update_of_ne hwv] at hw
      exact Or.inr hw
  refine ⟨?_, h.mem_bounded, h.globals, ?_, ?_, h.mem_private⟩
  · intro w y r hw hm
    rcases hcases w y hw with ⟨rfl, rfl⟩ | hw
    · exact hexists r hm
    · exact h.env_exists w y r hw hm
  · intro w y a hw
    rcases hcases w y hw with ⟨rfl, rfl⟩ | hw
    · exact hrooted a
    · exact h.rooted w y a hw
  · intro w y a n hw hm
    rcases hcases w y hw with ⟨rfl, rfl⟩ | hw
    · exact hprivate a n hm
    · exact h.env_private w y a n hw hm

/-- A value that is not an address computation. -/
theorem definePlain (h : Confines owner N isGlobal env m) {v : Value} {x : Val}
    (hplain : owner v = none) (hclear : ∀ r, Mentions x r → m.Exists r ∧ ¬ Private N r) :
    Confines owner N isGlobal (Function.update env v (some x)) m := by
  apply h.define
  · exact fun r hm => (hclear r hm).1
  · intro a ha
    rw [hplain] at ha
    cases ha
  · exact fun a n hm ha => absurd ha (hclear _ hm).2

/-- Several of them at once. -/
theorem setAll (h : Confines owner N isGlobal env m) {vs : List Value} {xs : List Val}
    (hplain : ∀ v ∈ vs, owner v = none)
    (hclear : ∀ x ∈ xs, ∀ r, Mentions x r → m.Exists r ∧ ¬ Private N r) :
    Confines owner N isGlobal (env.setAll vs xs) m :=
  Vals.setAll_invariant (Q := fun env => Confines owner N isGlobal env m)
    (fun _ v x hv hx h => h.definePlain (hplain v hv) (hclear x hx)) h

/-- A fresh region for an alloca. -/
theorem alloc (h : Confines owner N isGlobal env m) {v : Value}
    (howner : ∀ a, owner v = some a → a = v) (hN : N v → owner v = some v) :
    Confines owner N isGlobal (Function.update env v (some (pointer (m.fresh v) 0)))
      (m.alloc v) := by
  have hgrow : ∀ r, m.Exists r → (m.alloc v).Exists r := by
    intro r hr
    cases r with
    | external n => exact hr
    | slot a n =>
      by_cases ha : a = v
      · subst ha
        show n < Function.update m.count a (m.count a + 1) a
        rw [Function.update_self]
        exact Nat.lt_succ_of_lt hr
      · show n < Function.update m.count v (m.count v + 1) a
        rw [Function.update_of_ne ha]
        exact hr
  have h' : Confines owner N isGlobal env (m.alloc v) :=
    ⟨fun w x r hw hm => hgrow r (h.env_exists w x r hw hm),
      fun r o r' o' i hb => hgrow r' (h.mem_bounded r o r' o' i hb),
      h.globals, h.rooted, h.env_private, h.mem_private⟩
  apply h'.define
  · intro r hm
    rw [mentions_pointer.mp hm]
    show m.count v < Function.update m.count v (m.count v + 1) v
    rw [Function.update_self]
    exact Nat.lt_succ_self _
  · intro a ha
    rw [howner a ha]
    exact ⟨_, _, rfl⟩
  · intro a n hm ha
    cases mentions_pointer.mp hm
    exact hN ha

/-- Storing a value that mentions no private region. -/
theorem write (h : Confines owner N isGlobal env m) {r : RegionId} {o : Int} {x : Val}
    (hclear : ∀ r, Mentions x r → m.Exists r ∧ ¬ Private N r) :
    Confines owner N isGlobal env (m.write r o x) := by
  refine ⟨h.env_exists, ?_, h.globals, h.rooted, h.env_private, ?_⟩
  · intro r₁ o₁ r₂ o₂ i hb
    rcases m.write_bytes r o x r₁ o₁ with heq | hmem
    · rw [heq] at hb
      exact h.mem_bounded r₁ o₁ r₂ o₂ i hb
    · rw [hb] at hmem
      exact (hclear r₂ ⟨o₂, i, hmem⟩).1
  · intro r₁ o₁ r₂ o₂ i hb
    rcases m.write_bytes r o x r₁ o₁ with heq | hmem
    · rw [heq] at hb
      exact h.mem_private r₁ o₁ r₂ o₂ i hb
    · rw [hb] at hmem
      exact (hclear r₂ ⟨o₂, i, hmem⟩).2

/-- Loaded bytes mention no private region. -/
theorem read_clear (h : Confines owner N isGlobal env m) {r : RegionId} {o : Int} {n : Nat}
    {r' : RegionId} (hm : Mentions (m.read r o n) r') : m.Exists r' ∧ ¬ Private N r' := by
  obtain ⟨o₁, o₂, i, hb⟩ := Mem.mentions_read hm
  exact ⟨h.mem_bounded _ _ _ _ _ hb, h.mem_private _ _ _ _ _ hb⟩

/-- Arguments that are no confined addresses stay clear of private regions. -/
theorem args_clear (h : Confines owner N isGlobal env m) (hg : g.Owners owner N) {op : Op}
    (hop : op ∈ g.ops) {vs : List Value} {xs : List Val} (hvs : ∀ v ∈ vs, v ∈ op.operands)
    (hescape : ∀ v ∈ vs, derive v op = none) (hxs : env.getAll vs = some xs) :
    ∀ x ∈ xs, ∀ r, Mentions x r → m.Exists r ∧ ¬ Private N r := by
  intro x hx r hm
  obtain ⟨v, hv, henv⟩ := Vals.getAll_mem hxs x hx
  refine ⟨h.env_exists v x r henv hm, fun hp => ?_⟩
  cases r with
  | external n => exact hp
  | slot a n =>
    have howner := h.env_private v x a n henv hm hp
    exact hg.uses op hop v (hvs v hv) a howner hp (hescape v hv)

/-- A call respects what it cannot reach. -/
theorem call (h : Confines owner N M.isGlobal env m) {opid : OpId} {attrs : Nat} {w : M.World}
    {args : List Val} {out : Outcome M.World} (hcall : M.call opid attrs w args m = some out)
    (hargs : ∀ x ∈ args, ∀ r, Mentions x r → m.Exists r ∧ ¬ Private N r) :
    Confines owner N M.isGlobal env out.mem ∧
      ∀ x ∈ out.results, ∀ r, Mentions x r → out.mem.Exists r ∧ ¬ Private N r := by
  obtain ⟨hnext, hcount⟩ := M.call_grows hcall
  obtain ⟨hres, hmem⟩ := M.call_bounded hcall h.globals (fun x hx r hm => (hargs x hx r hm).1)
    h.mem_bounded
  obtain ⟨hclear, hhides, hbytes, -⟩ := M.call_hidden (P := Private N) hcall (fun _ hp => hp)
    (fun x hx r hm => (hargs x hx r hm).2) (fun r _ o r' o' i hb => h.mem_private r o r' o' i hb)
  refine ⟨⟨?_, hmem, ?_, h.rooted, h.env_private, ?_⟩, ?_⟩
  · intro v x r hv hm
    have hr := h.env_exists v x r hv hm
    cases r with
    | external n => exact Nat.lt_of_lt_of_le hr hnext
    | slot a n =>
      show n < out.mem.count a
      rw [hcount]
      exact hr
  · exact fun n hn => (h.globals n hn).trans_le hnext
  · intro r o r' o' i hb
    by_cases hr : Private N r
    · rw [hbytes r hr] at hb
      exact h.mem_private r o r' o' i hb
    · exact hhides r hr o r' o' i hb
  · exact fun x hx r hm => ⟨hres x hx r hm, hclear x hx r hm⟩

/-- Whatever a generic operation does keeps the confinement. -/
theorem perform (h : Confines owner N M.isGlobal env m) {hidden : Value → Bool} {opid : OpId}
    {attrs : Nat} {w : M.World} {args : List Val} {out : Outcome M.World} {event : Event}
    (hperform : M.perform hidden opid attrs args w m = some (out, event))
    (hargs : ∀ x ∈ args, ∀ r, Mentions x r → m.Exists r ∧ ¬ Private N r) :
    Confines owner N M.isGlobal env out.mem ∧
      ∀ x ∈ out.results, ∀ r, Mentions x r → out.mem.Exists r ∧ ¬ Private N r := by
  rcases Machine.perform_cases hperform with ⟨-, heval, hmem, -, -⟩ | ⟨-, hcall, -⟩
  · rw [hmem]
    refine ⟨h, fun x hx r hm => ?_⟩
    rcases M.eval_mentions heval x hx r hm with ⟨y, hy, hm⟩ | ⟨n, rfl, hglobal⟩
    · exact hargs y hy r hm
    · exact ⟨h.globals n hglobal, fun hp => hp⟩
  · exact h.call hcall hargs

/-- Every step keeps the confinement. -/
theorem step (hg : g.Owners owner N) {hidden : Value → Bool} {s s' : State M} {events : List Event}
    (h : Confines owner N M.isGlobal s.env s.mem) (hops : ∀ op ∈ s.rest, op ∈ g.ops)
    (hstep : M.Step g hidden s s' events) : Confines owner N M.isGlobal s'.env s'.mem := by
  cases hstep with
  | @alloca b r count ty rest env m w =>
    obtain ⟨howner, hN⟩ := hg.alloca (hops _ List.mem_cons_self)
    exact h.alloc howner hN
  | @gep b r base ty indices rest env m w region offset is hbase hindices =>
    have howner := hg.gep (hops _ List.mem_cons_self)
    have hregion : Mentions (pointer region offset) region := mentions_pointer.mpr rfl
    apply h.define
    · intro r' hm
      rw [mentions_pointer.mp hm]
      exact h.env_exists base _ region hbase hregion
    · intro a ha
      rw [howner] at ha
      obtain ⟨n, o, heq⟩ := h.rooted base _ a hbase ha
      rw [heq] at hregion
      rw [mentions_pointer.mp hregion]
      exact ⟨n, _, rfl⟩
    · intro a n hm ha
      rw [howner]
      obtain rfl := mentions_pointer.mp hm
      exact h.env_private base _ a n hbase hregion ha
  | @bitcast b r arg rest env m w x harg =>
    have howner := hg.bitcast (hops _ List.mem_cons_self)
    apply h.define
    · exact fun r' hm => h.env_exists arg x r' harg hm
    · intro a ha
      rw [howner] at ha
      exact h.rooted arg x a harg ha
    · intro a n hm ha
      rw [howner]
      exact h.env_private arg x a n harg hm ha
  | @load b r address rest env m w region offset haddress =>
    exact h.definePlain (hg.load (hops _ List.mem_cons_self)) fun r' hm => h.read_clear hm
  | @store b value address rest env m w x region offset hvalue haddress =>
    have hargs : env.getAll [value] = some [x] := by simp [Vals.getAll, hvalue]
    have hclear := h.args_clear hg (hops _ List.mem_cons_self) (by simp [Op.operands])
      (by simp [derive]) hargs
    exact h.write (hclear x List.mem_cons_self)
  | @next b attrs opid results operands rest env m w args out event hargs hperform =>
    have hop := hops _ List.mem_cons_self
    have hclear := h.args_clear hg hop (fun v hv => List.mem_append_left _ hv) (fun _ _ => rfl)
      hargs
    obtain ⟨h', hres⟩ := h.perform hperform hclear
    exact h'.setAll (hg.generic hop) hres
  | @jump b attrs opid results operands succs rest env m w args xs out event t hargs hperform ht
      hxs =>
    have hop := hops _ List.mem_cons_self
    have hclear := h.args_clear hg hop (fun v hv => List.mem_append_left _ hv) (fun _ _ => rfl)
      hargs
    obtain ⟨h', hres⟩ := h.perform hperform hclear
    have h'' : Confines owner N M.isGlobal (env.setAll results out.results) out.mem :=
      h'.setAll (hg.generic hop) hres
    have hclear' := h''.args_clear hg hop
      (fun v hv => List.mem_append_right _
        (List.mem_flatMap.mpr ⟨t, List.mem_of_getElem? ht, hv⟩)) (fun _ _ => rfl) hxs
    exact h''.setAll (hg.params t.dest) hclear'

end Confines

/-- A call starts confined. -/
theorem confines_entry {M : Machine} {owner : Value → Option Value} {N : Value → Prop} (e : Entry M)
    (hparams : ∀ v ∈ (g.block 0).params, owner v = none) :
    Confines owner N M.isGlobal (e.state g).env (e.state g).mem := by
  -- No region of an alloca exists yet.
  have hclear : ∀ r, e.mem.Exists r → ¬ Private N r := by
    intro r hr hp
    cases r with
    | external n => exact hp
    | slot a n =>
      have hlt : n < e.mem.count a := hr
      rw [e.fresh] at hlt
      omega
  have hstart : Confines owner N M.isGlobal (fun _ => none) e.mem := by
    refine ⟨?_, e.bounded, e.globals, ?_, ?_,
      fun r o r' o' i hb => hclear r' (e.bounded r o r' o' i hb)⟩
    · intro v x r hv
      cases hv
    · intro v x a hv
      cases hv
    · intro v x a n hv
      cases hv
  exact hstart.setAll hparams fun x hx r hm =>
    ⟨e.args_bounded x hx r hm, hclear r (e.args_bounded x hx r hm)⟩

/-! ## Allocas the escape search keeps -/

/-- The alloca at the root of an address, if there is one. -/
def allocaRoot (g : Region) (v : Value) : Option Value :=
  if g.isAlloca (g.rootOf v) then some (g.rootOf v) else none

theorem allocaRoot_eq_some {v a : Value} :
    g.allocaRoot v = some a ↔ g.rootOf v = a ∧ g.isAlloca a = true := by
  unfold allocaRoot
  split
  · rename_i h
    constructor
    · intro heq
      cases heq
      exact ⟨rfl, h⟩
    · rintro ⟨rfl, -⟩
      rfl
  · rename_i h
    constructor
    · intro heq
      cases heq
    · rintro ⟨rfl, ha⟩
      exact absurd ha h

/-- A value that is no address computation and no alloca has no root there. -/
theorem allocaRoot_eq_none {v : Value}
    (h : ∀ op, g.definingOp v = some op → (∀ r base ty indices, op ≠ .gep r base ty indices) ∧
      (∀ r arg, op ≠ .bitcast r arg) ∧ ∀ r ty count, op ≠ .alloca r ty count) :
    g.allocaRoot v = none := by
  have hroot : g.rootOf v = v :=
    rootOf_self (fun r base ty indices hdef => (h _ hdef).1 _ _ _ _ rfl)
      (fun r arg hdef => (h _ hdef).2.1 _ _ rfl)
  unfold allocaRoot
  rw [hroot, if_neg]
  intro ha
  obtain ⟨r, ty, count, hdef⟩ := isAlloca_iff.mp ha
  exact (h _ hdef).2.2 _ _ _ rfl

/-- Confined allocas have owners: roots. -/
theorem Confined.owners {N : Value → Prop} (hN : g.Confined N) (hwf : g.WellFormed) :
    g.Owners g.allocaRoot N := by
  refine ⟨?_, ?_, ?_, ?_, ?_, ?_, ?_⟩
  · intro r ty count hop
    have hdef := hwf.unique hop (v := r) List.mem_cons_self
    have hroot : g.rootOf r = r := by
      apply rootOf_self
      · intro r' base ty' indices hdef'
        rw [hdef] at hdef'
        cases hdef'
      · intro r' arg hdef'
        rw [hdef] at hdef'
        cases hdef'
    refine ⟨fun a ha => ?_, fun ha => allocaRoot_eq_some.mpr ⟨hroot, hN.alloca r ha⟩⟩
    rw [← (allocaRoot_eq_some.mp ha).1, hroot]
  · intro r base ty indices hop
    unfold allocaRoot
    rw [rootOf_gep hwf (hwf.unique hop (v := r) List.mem_cons_self)]
  · intro r arg hop
    unfold allocaRoot
    rw [rootOf_bitcast hwf (hwf.unique hop (v := r) List.mem_cons_self)]
  · intro r address hop
    apply allocaRoot_eq_none
    intro op hdef
    rw [hwf.unique hop (v := r) List.mem_cons_self] at hdef
    cases hdef
    simp
  · intro id attrs results operands succs hop v hv
    apply allocaRoot_eq_none
    intro op hdef
    rw [hwf.unique hop hv] at hdef
    cases hdef
    simp
  · intro b v hv
    apply allocaRoot_eq_none
    intro op hdef
    by_cases hb : b < g.blocks.length
    · rw [hwf.params (block_mem hb) hv] at hdef
      cases hdef
    · rw [block_params_eq_nil hb] at hv
      exact absurd hv List.not_mem_nil
  · intro op hop v hv a ha hNa
    exact hN.uses a hNa v (allocaRoot_eq_some.mp ha).1 op hop hv

end Region

end Crabbit.Llvm
