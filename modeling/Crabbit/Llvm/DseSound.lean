/-
  Crabbit.Llvm.DseSound

  What dead-store elimination preserves.

  The pass identifies a place in memory with its address key.  A key does not
  say how many bytes an access covers, and names another address once a value
  in it is redefined around a loop.  Where a run of the original function keeps
  clear of both (`KeysFaithful`: a store that stays overwrites all of the
  deleted ones to the same key before it), no byte a deleted store would have
  written is ever read, and the swept function does the same: same loads, same
  calls with the same memory, same memory at the exit (`dse_preserves`).
-/

import Crabbit.Llvm.Confinement
import Crabbit.Llvm.Dse

namespace Crabbit.Llvm

namespace Region

variable (g : Region)

/-! ## Reads before the next overwrite -/

/-- From the given point of a block some path reads the key before it stores
    to it again, as far as keys can tell reads apart. -/
inductive ReadBeforeOverwrite (k : AddrKey) : Nat → List Op → Prop where
  | load {b : Nat} {r address : Value} {rest : List Op}
      (hread : g.distinct (g.addrKey address) k = false) :
      ReadBeforeOverwrite k b (.load r address :: rest)
  | unknown {b attrs : Nat} {id : OpId} {results operands : List Value} {succs : List Successor}
      {rest : List Op} (hid : memoryBenign id = false) (hk : g.isProtected k = false) :
      ReadBeforeOverwrite k b (.generic id attrs results operands succs :: rest)
  | pass {b : Nat} {op : Op} {rest : List Op}
      (hop : ∀ v address, op = .store v address → g.addrKey address ≠ k)
      (hrest : ReadBeforeOverwrite k b rest) : ReadBeforeOverwrite k b (op :: rest)
  | edge {b s : Nat} (hs : s ∈ g.succs b) (hrest : ReadBeforeOverwrite k s (g.block s).ops) :
      ReadBeforeOverwrite k b []
  | exit {b : Nat} (hb : g.succs b = []) (hk : g.isProtected k = false) :
      ReadBeforeOverwrite k b []

/-! ## The stores of a run -/

/-- A store that was executed: the bytes it wrote, and the point after it. -/
structure Write where
  region : RegionId
  offset : Int
  length : Nat
  block : Nat
  rest : List Op

/-- The store wrote the byte. -/
def Write.Has (w : Write) (r : RegionId) (o : Int) : Prop :=
  r = w.region ∧ w.offset ≤ o ∧ o < w.offset + w.length

instance (w : Write) (r : RegionId) (o : Int) : Decidable (w.Has r o) :=
  inferInstanceAs (Decidable (_ ∧ _ ∧ _))

/-- For each key, the stores to it that a later store to it has to cancel. -/
abbrev PendingWrites := AddrKey → Write → Prop

variable {M : Machine}

/-- The store an execution is at, with its key. -/
def storeAt (s : State M) : Option (AddrKey × Write) :=
  match s.rest with
  | .store value address :: rest => do
    let x ← s.env value
    let (region, offset) ← (← s.env address) |> asPointer
    some (g.addrKey address, ⟨region, offset, x.length, s.block, rest⟩)
  | _ => none

/-- A store whose key is read before it is stored to again cancels those
    before it; one whose key is not joins them. -/
def pendingAfter (pending : PendingWrites) (s : State M) : PendingWrites :=
  match g.storeAt s with
  | some (k, w) => fun j old => if j = k then
      ¬ g.ReadBeforeOverwrite k w.block w.rest ∧ (old = w ∨ pending k old)
    else pending j old
  | none => pending

/-- The store at hand, if some path reads its key before the next store to it,
    overwrites every byte the pending stores to the key wrote. -/
def Overwrites (pending : PendingWrites) (s : State M) : Prop :=
  ∀ k new, g.storeAt s = some (k, new) → g.ReadBeforeOverwrite k new.block new.rest →
    ∀ old, pending k old → ∀ r o, old.Has r o → new.Has r o

/-- Allocas no call or caller can look into. -/
def hiddenAlloca (v : Value) : Bool := v ∈ g.nonescapingAllocas

/-- Along `n` steps, stores that cancel each other by key do so in memory. -/
def KeysFaithful : Nat → PendingWrites → State M → Prop
  | 0, _, _ => True
  | n + 1, pending, s => g.Overwrites pending s ∧
      ∀ s' events, M.Step g g.hiddenAlloca s s' events →
        KeysFaithful n (g.pendingAfter pending s) s'

/-! ## Stale bytes -/

/-- The pass deletes the store the execution is at. -/
def DeletesAt (out : Nat → Finset AddrKey) (s : State M) : Prop :=
  match s.rest with
  | .store _ address :: rest => g.addrKey address ∉ (g.sweep rest (out s.block)).1
  | _ => False

/-- The bytes whose last write was by a deleted store. -/
def staleAfter (out : Nat → Finset AddrKey) (stale : RegionId → Int → Prop) (s : State M)
    (r : RegionId) (o : Int) : Prop :=
  match g.storeAt s with
  | some (_, w) => if w.Has r o then g.DeletesAt out s else stale r o
  | none => stale r o

/-- The bytes the next operation may read: those of a load, and everything a
    call or the caller can see. -/
def Reads (s : State M) (r : RegionId) (o : Int) : Prop :=
  match s.rest with
  | .load result address :: _ =>
    ∃ offset, s.env address = some (pointer r offset) ∧
      offset ≤ o ∧ o < offset + M.sizeOf result.ty
  | [.generic _ _ _ _ []] => ¬ Private (g.hiddenAlloca · = true) r
  | .generic id _ _ _ _ :: _ =>
    memoryBenign id = false ∧ ¬ Private (g.hiddenAlloca · = true) r
  | _ => False

/-- Along `n` steps nothing reads a byte a deleted store wrote. -/
def StaleUnread (out : Nat → Finset AddrKey) : Nat → (RegionId → Int → Prop) → State M → Prop
  | 0, _, _ => True
  | n + 1, stale, s => (∀ r o, g.Reads s r o → ¬ stale r o) ∧
      ∀ s' events, M.Step g g.hiddenAlloca s s' events →
        StaleUnread out n (g.staleAfter out stale s) s'

variable {g}

/-! ## What is read is live -/

/-- The live sets of a solution contain every key that is read before it is
    overwritten. -/
theorem ReadBeforeOverwrite.live {out : Nat → Finset AddrKey} (hwf : g.WellFormed)
    (hout : g.IsLiveOut out) {k : AddrKey} (hk : k ∈ g.keys) {b : Nat} {ops : List Op}
    (h : g.ReadBeforeOverwrite k b ops) (hb : b < g.blocks.length) :
    k ∈ (g.sweep ops (out b)).1 := by
  induction h with
  | load hread => exact Finset.mem_union_right _ (mem_readSet.mpr ⟨hk, hread⟩)
  | unknown hid hprot =>
    show k ∈ (if memoryBenign _ then (_, _) else (_ ∪ g.unknownRead, _)).1
    rw [if_neg (by simpa [Op.opid] using hid)]
    exact Finset.mem_union_right _ (mem_unknownRead.mpr ⟨hk, hprot⟩)
  | @pass b op rest hop hrest ih =>
    have ih := ih hb
    show k ∈ (g.sweepOp op (g.sweep rest (out b))).1
    cases op with
    | store v address =>
      rw [sweepOp]
      split
      · exact ih
      · exact Finset.mem_erase.mpr ⟨fun heq => hop v address rfl heq.symm, ih⟩
    | load r address => exact Finset.mem_union_left _ ih
    | _ =>
      simp only [sweepOp]
      split
      · exact ih
      · exact Finset.mem_union_left _ ih
  | @edge b s hs hrest ih => exact (hout b hb k).mpr (Or.inr ⟨s, hs, ih (hwf.succs_lt hs)⟩)
  | exit hb' hprot => exact (hout _ hb k).mpr (Or.inl ⟨hb', mem_unknownRead.mpr ⟨hk, hprot⟩⟩)

/-- Walking back over a block keeps a live set to keys that are read before
    they are overwritten. -/
theorem sweep_readBeforeOverwrite {b : Nat} {live : Finset AddrKey}
    (hlive : ∀ k ∈ live, g.ReadBeforeOverwrite k b []) (ops : List Op) {k : AddrKey}
    (hk : k ∈ (g.sweep ops live).1) : g.ReadBeforeOverwrite k b ops := by
  induction ops generalizing k with
  | nil => exact hlive k hk
  | cons op rest ih =>
    change k ∈ (g.sweepOp op (g.sweep rest live)).1 at hk
    cases op with
    | store v address =>
      -- The key of the store is dead before it: it was, or is erased.
      have hne : k ≠ g.addrKey address ∧ k ∈ (g.sweep rest live).1 := by
        rw [sweepOp] at hk
        split at hk
        · rename_i hdead
          exact ⟨fun heq => hdead (heq ▸ hk), hk⟩
        · exact Finset.mem_erase.mp hk
      refine .pass ?_ (ih hne.2)
      rintro v' address' ⟨⟩ heq
      exact hne.1 heq.symm
    | load r address =>
      rcases Finset.mem_union.mp hk with hk | hk
      · exact .pass (by simp) (ih hk)
      · exact .load (mem_readSet.mp hk).2
    | alloca | gep | bitcast => exact .pass (by simp) (ih hk)
    | generic id attrs results operands succs =>
      by_cases hid : memoryBenign id = true
      · rw [show g.sweepOp (.generic id attrs results operands succs) (g.sweep rest live) = (_, _)
          from if_pos hid] at hk
        exact .pass (by simp) (ih hk)
      · rw [show g.sweepOp (.generic id attrs results operands succs) (g.sweep rest live) = (_, _)
          from if_neg hid] at hk
        rcases Finset.mem_union.mp hk with hk | hk
        · exact .pass (by simp) (ih hk)
        · exact .unknown (Bool.eq_false_of_not_eq_true hid) (mem_unknownRead.mp hk).2

/-- The solver finds no key live that is not. -/
theorem liveOut_readBeforeOverwrite (hwf : g.WellFormed) {out : Nat → Finset AddrKey}
    (h : g.liveOut = some out) {b : Nat} (hb : b < g.blocks.length) {k : AddrKey}
    (hk : k ∈ out b) : g.ReadBeforeOverwrite k b [] := by
  obtain ⟨⟨liveIn, out⟩, hfix, rfl⟩ := Option.map_eq_some_iff.mp h
  have htransfer : ∀ b < g.blocks.length, ∀ live, (∀ k ∈ live, g.ReadBeforeOverwrite k b []) →
      ∀ k ∈ g.livenessProblem.transfer b live, g.ReadBeforeOverwrite k b (g.block b).ops := by
    intro b _ live hlive k hk
    rw [transfer_eq_sweep] at hk
    exact sweep_readBeforeOverwrite hlive _ hk
  exact (BackwardProblem.fixpoint_induction (fun b _ s hs => hwf.succs_lt hs)
    (fun b _ hnil k hk => .exit hnil (mem_unknownRead.mp hk).2)
    (fun b _ s hs k hk => .edge hs hk) htransfer hfix b hb).2 k hk

/-! ## Keys and regions -/

/-- A region an address with the key may point into: if the key is rooted at
    an alloca it is one of that alloca's, and no other key reaches the regions
    of a non-escaping alloca. -/
structure Owns (g : Region) (k : AddrKey) (r : RegionId) : Prop where
  rooted : g.isAlloca (keyRoot k) = true → ∃ n, r = .slot (keyRoot k) n
  hidden : ∀ a n, r = .slot a n → g.hiddenAlloca a = true → keyRoot k = a

theorem isAlloca_of_hiddenAlloca (hwf : g.WellFormed) {a : Value} (h : g.hiddenAlloca a = true) :
    g.isAlloca a = true :=
  (mem_nonescapingAllocas (of_decide_eq_true h) hwf).1

theorem owners_hiddenAlloca (hwf : g.WellFormed) :
    g.Owners g.allocaRoot (g.hiddenAlloca · = true) := by
  obtain ⟨halloca, huses⟩ := confined_nonescapingAllocas hwf
  apply Confined.owners _ hwf
  exact ⟨fun a ha => halloca a (of_decide_eq_true ha),
    fun a ha => huses a (of_decide_eq_true ha)⟩

/-- What the code calls distinct keys are in different regions. -/
theorem Owns.ne_of_distinct (hwf : g.WellFormed) {j k : AddrKey} {r r' : RegionId}
    (hj : g.Owns j r) (hk : g.Owns k r') (h : g.distinct j k = true) : r ≠ r' := by
  rintro rfl
  unfold distinct at h
  obtain ⟨-, h⟩ := of_decide_eq_true h
  rcases h with ⟨haj, hak, hne⟩ | ⟨hp, hne⟩ | ⟨hp, hne⟩
  · obtain ⟨n, heq⟩ := hj.rooted haj
    obtain ⟨n', heq'⟩ := hk.rooted hak
    exact hne (RegionId.slot.inj (heq.symm.trans heq')).1
  · obtain ⟨n, heq⟩ := hj.rooted (isAlloca_of_hiddenAlloca hwf hp)
    exact hne (hk.hidden _ n heq hp).symm
  · obtain ⟨n, heq⟩ := hk.rooted (isAlloca_of_hiddenAlloca hwf hp)
    exact hne (hj.hidden _ n heq hp)

/-- Every access is in a region its key owns. -/
theorem Confines.owns {env : Vals} {m : Mem}
    (h : Confines g.allocaRoot (g.hiddenAlloca · = true) M.isGlobal env m) {address : Value}
    {r : RegionId} {o : Int} (haddress : env address = some (pointer r o)) :
    g.Owns (g.addrKey address) r := by
  have hm : Mentions (pointer r o) r := mentions_pointer.mpr rfl
  constructor
  · intro ha
    obtain ⟨n, o', heq⟩ := h.rooted address _ (g.rootOf address) haddress
      (allocaRoot_eq_some.mpr ⟨rfl, ha⟩)
    rw [heq] at hm
    exact ⟨n, mentions_pointer.mp hm⟩
  · rintro a n rfl ha
    exact (allocaRoot_eq_some.mp (h.env_private address _ a n haddress hm ha)).1

/-! ## The simulation -/

/-- The original function at `s` and the swept one at `s'`: the same point, the
    same values, and the same memory but for stale bytes.  A stale byte is one
    of a pending write to some key that is not live. -/
structure Swept (g : Region) (out : Nat → Finset AddrKey) (pending : PendingWrites)
    (stale : RegionId → Int → Prop) (s s' : State M) : Prop where
  block : s'.block = s.block
  rest : s'.rest = (g.sweep s.rest (out s.block)).2
  env : s'.env = s.env
  world : s'.world = s.world
  suffix : ∃ before, (g.block s.block).ops = before ++ s.rest
  confines : Confines g.allocaRoot (g.hiddenAlloca · = true) M.isGlobal s.env s.mem
  next : s'.mem.next = s.mem.next
  count : s'.mem.count = s.mem.count
  bytes : ∀ r o, ¬ stale r o → s'.mem.bytes r o = s.mem.bytes r o
  stale : ∀ r o, stale r o → ∃ k w, pending k w ∧ w.Has r o ∧
    k ∉ (g.sweep s.rest (out s.block)).1
  owned : ∀ k w, pending k w → g.Owns k w.region ∧ k ∈ g.keys

namespace Swept

variable {out : Nat → Finset AddrKey} {pending : PendingWrites} {stale : RegionId → Int → Prop}
  {s s' t : State M} {events : List Event}

/-- Moving on without a store. -/
theorem moveTo (h : Swept g out pending stale s s') {b : Nat} {rest : List Op} {env : Vals}
    {m m' : Mem} {w : M.World} (hsuffix : ∃ before, (g.block b).ops = before ++ rest)
    (hconfines : Confines g.allocaRoot (g.hiddenAlloca · = true) M.isGlobal env m)
    (hnext : m'.next = m.next) (hcount : m'.count = m.count)
    (hbytes : ∀ r o, ¬ stale r o → m'.bytes r o = m.bytes r o)
    (hlive : ∀ k, k ∉ (g.sweep s.rest (out s.block)).1 → k ∉ (g.sweep rest (out b)).1) :
    Swept g out pending stale (⟨b, rest, env, m, w⟩ : State M)
      ⟨b, (g.sweep rest (out b)).2, env, m', w⟩ := by
  refine ⟨rfl, rfl, rfl, rfl, hsuffix, hconfines, hnext, hcount, hbytes, ?_, h.owned⟩
  intro r o hstale
  obtain ⟨k, w, hpending, hhas, hk⟩ := h.stale r o hstale
  exact ⟨k, w, hpending, hhas, hlive k hk⟩

/-- Where everything unprotected is live, stale bytes are private. -/
theorem stale_private (hwf : g.WellFormed) (h : Swept g out pending stale s s')
    (hlive : ∀ k ∈ g.unknownRead, k ∈ (g.sweep s.rest (out s.block)).1) {r : RegionId} {o : Int}
    (hstale : stale r o) : Private (g.hiddenAlloca · = true) r := by
  obtain ⟨k, w, hpending, hhas, hk⟩ := h.stale r o hstale
  obtain ⟨howns, hkeys⟩ := h.owned k w hpending
  have hprot : g.isProtected k = true := by
    by_contra hprot
    exact hk (hlive k (mem_unknownRead.mpr ⟨hkeys, Bool.eq_false_of_not_eq_true hprot⟩))
  obtain ⟨n, heq⟩ := howns.rooted (isAlloca_of_hiddenAlloca hwf hprot)
  rw [hhas.1, heq]
  exact hprot

/-- There the two memories agree for whoever cannot see private regions. -/
theorem agree (hwf : g.WellFormed) (h : Swept g out pending stale s s')
    (hlive : ∀ k ∈ g.unknownRead, k ∈ (g.sweep s.rest (out s.block)).1) :
    Mem.AgreeOutside (Private (g.hiddenAlloca · = true)) s.mem s'.mem := by
  refine ⟨h.next, fun r hr => ?_⟩
  funext o
  exact h.bytes r o fun hstale => hr (h.stale_private hwf hlive hstale)

/-- A generic operation does the same to the swept memory: an evaluation does
    not look at it, and a call sees everything but private regions. -/
theorem perform (hwf : g.WellFormed) (h : Swept g out pending stale s s') {opid : OpId}
    {attrs : Nat} {results operands : List Value} {succs : List Successor} {rest : List Op}
    (hrest : s.rest = .generic opid attrs results operands succs :: rest) {args : List Val}
    (hargs : ∀ x ∈ args, ∀ r, Mentions x r →
      s.mem.Exists r ∧ ¬ Private (g.hiddenAlloca · = true) r)
    {o : Outcome M.World} {event : Event}
    (hperform : M.perform g.hiddenAlloca opid attrs args s.world s.mem = some (o, event)) :
    ∃ mem', M.perform g.hiddenAlloca opid attrs args s.world s'.mem
        = some (⟨o.world, o.results, mem', o.choice⟩, event) ∧
      mem'.next = o.mem.next ∧ mem'.count = o.mem.count ∧
      ∀ r p, ¬ stale r p → mem'.bytes r p = o.mem.bytes r p := by
  rcases Machine.perform_cases hperform with ⟨hid, heval, hmem, hworld, hevent⟩ |
    ⟨hid, hcall, hevent⟩
  · refine ⟨s'.mem, ?_, ?_, ?_, ?_⟩
    · unfold Machine.perform
      rw [if_pos hid, heval, hevent, hworld]
      rfl
    · rw [hmem, h.next]
    · rw [hmem, h.count]
    · rw [hmem]
      exact h.bytes
  · have hlive : ∀ k ∈ g.unknownRead, k ∈ (g.sweep s.rest (out s.block)).1 := by
      intro k hk
      rw [hrest]
      show k ∈ (if memoryBenign _ then (_, _) else (_ ∪ g.unknownRead, _)).1
      rw [if_neg (by simpa [Op.opid] using hid)]
      exact Finset.mem_union_right _ hk
    have hagree := h.agree hwf hlive
    obtain ⟨-, -, hkept, hsame⟩ := M.call_hidden (P := Private (g.hiddenAlloca · = true)) hcall
      (fun _ hp => hp) (fun x hx r hm => (hargs x hx r hm).2)
      (fun r _ p r' p' i hb => h.confines.mem_private r p r' p' i hb)
    obtain ⟨mem', hcall', hagree', hkept'⟩ := hsame s'.mem hagree
    have hcount : mem'.count = o.mem.count :=
      (M.call_grows hcall').2.trans (h.count.trans (M.call_grows hcall).2.symm)
    refine ⟨mem', ?_, hagree'.next, hcount, fun r p hstale => ?_⟩
    · unfold Machine.perform
      rw [if_neg (by simp [hid]), hcall', hevent, visible_congr hagree]
      rfl
    · by_cases hr : Private (g.hiddenAlloca · = true) r
      · rw [hkept' r hr, hkept r hr]
        exact h.bytes r p hstale
      · rw [hagree'.bytes r hr]

/-! ### One step -/

theorem block_lt (h : Swept g out pending stale s s') {op : Op} {rest : List Op}
    (hrest : s.rest = op :: rest) : s.block < g.blocks.length := by
  by_contra hb
  obtain ⟨before, hops⟩ := h.suffix
  rw [block_ops_eq_nil hb, hrest] at hops
  simp at hops

theorem suffix_tail (h : Swept g out pending stale s s') {op : Op} {rest : List Op}
    (hrest : s.rest = op :: rest) : ∃ before, (g.block s.block).ops = before ++ rest := by
  obtain ⟨before, hops⟩ := h.suffix
  exact ⟨before ++ [op], by rw [hops, hrest]; simp⟩

theorem mem_ops (h : Swept g out pending stale s s') {op : Op} (hop : op ∈ s.rest) :
    op ∈ g.ops := by
  obtain ⟨before, hops⟩ := h.suffix
  apply mem_ops_of_block (b := s.block)
  rw [hops]
  exact List.mem_append_right _ hop

/-- A branch ends its block. -/
theorem rest_eq_nil (hwf : g.WellFormed) (h : Swept g out pending stale s s') {op : Op}
    {rest : List Op} (hrest : s.rest = op :: rest) (hop : op.succs ≠ []) : rest = [] := by
  obtain ⟨before, hops⟩ := h.suffix
  rw [hrest] at hops
  by_contra hne
  exact hop (hwf.succs_nil hops hne)

theorem dest_mem_succs (hwf : g.WellFormed) (h : Swept g out pending stale s s') {op : Op}
    {rest : List Op} (hrest : s.rest = op :: rest) {d : Successor} (hd : d ∈ op.succs) :
    d.dest ∈ g.succs s.block := by
  obtain rfl := h.rest_eq_nil hwf hrest (List.ne_nil_of_mem hd)
  obtain ⟨before, hops⟩ := h.suffix
  rw [hrest] at hops
  exact (mem_succs_last hops d.dest).mpr ⟨d, hd, rfl⟩

/-- The last operation of a block is never deleted. -/
theorem sweep_ne_nil (hwf : g.WellFormed) (h : Swept g out pending stale s s') {op : Op}
    {rest : List Op} (hrest : s.rest = op :: rest) (hne : rest ≠ []) (live : Finset AddrKey) :
    (g.sweep rest live).2 ≠ [] := by
  obtain ⟨before, hops⟩ := h.suffix
  have hlast : rest.getLast hne ∈ (g.block s.block).ops.getLast? := by
    rw [hops, hrest, List.getLast?_append, List.getLast?_cons, List.getLast?_eq_some_getLast hne]
    rfl
  have hgeneric := hwf.ends _ (block_mem (h.block_lt hrest)) _ hlast
  apply List.ne_nil_of_mem (a := rest.getLast hne)
  apply mem_sweep (List.getLast_mem hne)
  intro v a heq
  rw [heq] at hgeneric
  cases hgeneric

/-- At the end of the function everything unprotected is live. -/
theorem live_exit (hout : g.IsLiveOut out) (h : Swept g out pending stale s s') {id : OpId}
    {attrs : Nat} {results operands : List Value}
    (hrest : s.rest = [.generic id attrs results operands []]) {k : AddrKey}
    (hk : k ∈ g.unknownRead) : k ∈ out s.block := by
  obtain ⟨before, hops⟩ := h.suffix
  rw [hrest] at hops
  refine (hout s.block (h.block_lt hrest) k).mpr (Or.inl ⟨?_, hk⟩)
  rw [List.eq_nil_iff_forall_not_mem]
  intro b hb
  obtain ⟨t, ht, -⟩ := (mem_succs_last hops b).mp hb
  exact absurd ht List.not_mem_nil

/-- What the next operation reads is not stale. -/
theorem unread (hwf : g.WellFormed) (hout : g.IsLiveOut out) (h : Swept g out pending stale s s')
    {r : RegionId} {o : Int} (hread : g.Reads s r o) : ¬ stale r o := by
  intro hstale
  -- A reader that sees no private region finds only private bytes stale.
  have hblind : ¬ Private (g.hiddenAlloca · = true) r →
      (∀ k ∈ g.unknownRead, k ∈ (g.sweep s.rest (out s.block)).1) → False :=
    fun hsee hlive => hsee (h.stale_private hwf hlive hstale)
  unfold Reads at hread
  split at hread
  · rename_i result address rest hrest
    obtain ⟨offset, haddress, hlo, hhi⟩ := hread
    obtain ⟨k, w, hpending, hhas, hk⟩ := h.stale r o hstale
    obtain ⟨howns, hkeys⟩ := h.owned k w hpending
    have hdistinct : g.distinct (g.addrKey address) k = true := by
      by_contra hd
      apply hk
      rw [hrest]
      exact Finset.mem_union_right _
        (mem_readSet.mpr ⟨hkeys, Bool.eq_false_of_not_eq_true hd⟩)
    exact (h.confines.owns haddress).ne_of_distinct hwf howns hdistinct hhas.1
  · rename_i id attrs results operands hrest
    apply hblind hread
    intro k hk
    have hexit := h.live_exit hout hrest hk
    rw [hrest]
    show k ∈ (if memoryBenign _ then (out s.block, _) else (out s.block ∪ g.unknownRead, _)).1
    split
    · exact hexit
    · exact Finset.mem_union_left _ hexit
  · rename_i id attrs results operands succs rest _ hrest
    apply hblind hread.2
    intro k hk
    rw [hrest]
    show k ∈ (if memoryBenign _ then (_, _) else (_ ∪ g.unknownRead, _)).1
    rw [if_neg (by simpa [Op.opid] using hread.1)]
    exact Finset.mem_union_right _ hk
  · exact hread

end Swept

theorem storeAt_none {s : State M} (h : ∀ v a rest, s.rest ≠ .store v a :: rest) :
    g.storeAt s = none := by
  unfold storeAt
  split
  · exact absurd ‹_› (h _ _ _)
  · rfl

theorem storeAt_store {s : State M} {v a : Value} {rest : List Op}
    (hrest : s.rest = .store v a :: rest) {x : Val} {r : RegionId} {o : Int} (hv : s.env v = some x)
    (ha : s.env a = some (pointer r o)) :
    g.storeAt s = some (g.addrKey a, ⟨r, o, x.length, s.block, rest⟩) := by
  unfold storeAt
  rw [hrest]
  simp [hv, ha, asPointer_pointer]

theorem pendingAfter_store {s : State M} {k : AddrKey} {w : Write} (h : g.storeAt s = some (k, w))
    (pending : PendingWrites) (j : AddrKey) (old : Write) :
    g.pendingAfter pending s j old ↔ if j = k then
      ¬ g.ReadBeforeOverwrite k w.block w.rest ∧ (old = w ∨ pending k old)
      else pending j old := by
  unfold pendingAfter
  rw [h]

theorem staleAfter_store {s : State M} {k : AddrKey} {w : Write} (h : g.storeAt s = some (k, w))
    (out : Nat → Finset AddrKey) (stale : RegionId → Int → Prop) (r : RegionId) (o : Int) :
    g.staleAfter out stale s r o ↔ if w.Has r o then g.DeletesAt out s else stale r o := by
  unfold staleAfter
  rw [h]

/-- Only a store changes the ghosts. -/
theorem pendingAfter_eq {s : State M} (h : ∀ v a rest, s.rest ≠ .store v a :: rest)
    (pending : PendingWrites) : g.pendingAfter pending s = pending := by
  unfold pendingAfter
  rw [storeAt_none h]

theorem staleAfter_eq {s : State M} (h : ∀ v a rest, s.rest ≠ .store v a :: rest)
    (out : Nat → Finset AddrKey) (stale : RegionId → Int → Prop) :
    g.staleAfter out stale s = stale := by
  unfold staleAfter
  rw [storeAt_none h]

namespace Swept

variable {out : Nat → Finset AddrKey} {pending : PendingWrites} {stale : RegionId → Int → Prop}
  {s s' t : State M} {events : List Event}

/-- The record of pending writes stays about regions their keys own. -/
theorem owned_store (h : Swept g out pending stale s s') {v a : Value} {rest : List Op}
    (hrest : s.rest = .store v a :: rest) {x : Val} {r : RegionId} {o : Int}
    (hv : s.env v = some x) (ha : s.env a = some (pointer r o)) :
    ∀ k w, g.pendingAfter pending s k w → g.Owns k w.region ∧ k ∈ g.keys := by
  intro k w hpending
  rw [pendingAfter_store (storeAt_store hrest hv ha)] at hpending
  split at hpending
  · rename_i hk
    rw [hk]
    rcases hpending.2 with rfl | hold
    · have hop : Op.store v a ∈ g.ops := h.mem_ops (by rw [hrest]; exact List.mem_cons_self)
      exact ⟨h.confines.owns ha, mem_keys hop (Or.inl ⟨v, rfl⟩)⟩
    · exact h.owned _ w hold
  · exact h.owned k w hpending

/-- A byte that is stale after a store, and not of its own making, is still of
    a pending write: a store that stays cancels those to its key, and a deleted
    one cancels nothing. -/
theorem stale_other (hleast : ∀ b < g.blocks.length, ∀ k ∈ out b, g.ReadBeforeOverwrite k b [])
    (h : Swept g out pending stale s s') (hfaith : g.Overwrites pending s) {v a : Value}
    {rest : List Op} (hrest : s.rest = .store v a :: rest) {new : Write}
    (hstore : g.storeAt s = some (g.addrKey a, new)) (hnew : new.block = s.block ∧ new.rest = rest)
    {r : RegionId} {o : Int} (hhas : ¬ new.Has r o) (hstale : stale r o) :
    ∃ j w, g.pendingAfter pending s j w ∧ w.Has r o ∧ j ∉ (g.sweep rest (out s.block)).1 := by
  obtain ⟨j, w, hpending, hw, hdead⟩ := h.stale r o hstale
  rw [hrest] at hdead
  change j ∉ (g.sweepOp (.store v a) (g.sweep rest (out s.block))).1 at hdead
  refine ⟨j, w, ?_, hw, ?_⟩
  · rw [pendingAfter_store hstore]
    split
    · rename_i hj
      rw [hj] at hpending
      -- Were the key read, the new store would have the byte.
      exact ⟨fun hread => hhas (hfaith _ new hstore hread w hpending r o hw), Or.inr hpending⟩
    · exact hpending
  · intro hlive
    rw [sweepOp] at hdead
    split at hdead
    · exact hdead hlive
    · by_cases hj : j = g.addrKey a
      · subst hj
        have hread := sweep_readBeforeOverwrite (hleast s.block (h.block_lt hrest)) rest hlive
        rw [← hnew.1, ← hnew.2] at hread
        exact hhas (hfaith _ new hstore hread w hpending r o hw)
      · exact hdead (Finset.mem_erase.mpr ⟨hj, hlive⟩)

/-- A store, deleted or kept. -/
theorem step_store (hwf : g.WellFormed) (hout : g.IsLiveOut out)
    (hleast : ∀ b < g.blocks.length, ∀ k ∈ out b, g.ReadBeforeOverwrite k b [])
    {g' : Region} {b : Nat}
    {v a : Value} {rest : List Op} {env : Vals} {m : Mem} {w : M.World} {x : Val} {r : RegionId}
    {o : Int}
    (h : Swept g out pending stale ⟨b, .store v a :: rest, env, m, w⟩ s')
    (hfaith : g.Overwrites pending (⟨b, .store v a :: rest, env, m, w⟩ : State M))
    (hv : env v = some x) (ha : env a = some (pointer r o))
    (hconfines : Confines g.allocaRoot (g.hiddenAlloca · = true) M.isGlobal env (m.write r o x)) :
    let s : State M := ⟨b, .store v a :: rest, env, m, w⟩
    let t : State M := ⟨b, rest, env, m.write r o x, w⟩
    ∃ n ≤ 1, ∃ t', M.run g' g.hiddenAlloca n s' = (t', []) ∧
      Swept g out (g.pendingAfter pending s) (g.staleAfter out stale s) t t' := by
  intro s t
  have hstore : g.storeAt s = some (g.addrKey a, ⟨r, o, x.length, b, rest⟩) :=
    storeAt_store rfl hv ha
  have hstale := staleAfter_store hstore out stale
  have howned := h.owned_store rfl hv ha
  have hsuffix := h.suffix_tail rfl
  -- What the store leaves stale of older writes, whichever way the pass decides.
  have hothers : ∀ r' o', ¬ Write.Has ⟨r, o, x.length, b, rest⟩ r' o' → stale r' o' →
      ∃ j w, g.pendingAfter pending s j w ∧ w.Has r' o' ∧ j ∉ (g.sweep rest (out b)).1 :=
    fun r' o' hhas => h.stale_other hleast hfaith rfl hstore ⟨rfl, rfl⟩ hhas
  by_cases hk : g.addrKey a ∈ (g.sweep rest (out b)).1
  · -- Kept: the store overwrites its range in both memories.
    have hrest : s'.rest = .store v a :: (g.sweep rest (out b)).2 := by
      rw [h.rest]
      exact congrArg Prod.snd (if_neg (not_not_intro hk))
    have hstep : M.step g' g.hiddenAlloca s' = some (⟨s'.block, (g.sweep rest (out b)).2, s'.env,
        s'.mem.write r o x, s'.world⟩, []) := by
      unfold Machine.step
      rw [hrest]
      simp [h.env, hv, ha, asPointer_pointer]
    refine ⟨1, le_rfl, _, by simp only [Machine.run, hstep]; rfl, ?_⟩
    rw [h.block, h.env, h.world]
    refine ⟨rfl, rfl, rfl, rfl, hsuffix, hconfines, h.next, h.count, ?_, ?_, howned⟩
    · intro r' o' hns
      rw [hstale] at hns
      by_cases hin : Write.Has ⟨r, o, x.length, b, rest⟩ r' o'
      · obtain ⟨rfl, hlo, hhi⟩ := hin
        exact Mem.write_bytes_inside _ _ hlo hhi
      · rw [if_neg hin] at hns
        exact (Mem.write_bytes_outside _ hin).trans
          ((h.bytes r' o' hns).trans (Mem.write_bytes_outside _ hin).symm)
    · intro r' o' hs
      rw [hstale] at hs
      by_cases hin : Write.Has ⟨r, o, x.length, b, rest⟩ r' o'
      · rw [if_pos hin] at hs
        exact absurd hk hs
      · rw [if_neg hin] at hs
        exact hothers r' o' hin hs
  · -- Deleted: its range becomes stale, by a key that is dead and so not read.
    refine ⟨0, Nat.zero_le _, s', rfl, ?_⟩
    have hrest : s'.rest = (g.sweep rest (out b)).2 := by
      rw [h.rest]
      exact congrArg Prod.snd (if_pos hk)
    refine ⟨h.block, hrest, h.env, h.world, hsuffix, hconfines, h.next, h.count, ?_, ?_, howned⟩
    · intro r' o' hns
      rw [hstale] at hns
      by_cases hin : Write.Has ⟨r, o, x.length, b, rest⟩ r' o'
      · rw [if_pos hin] at hns
        exact absurd hk hns
      · rw [if_neg hin] at hns
        exact (h.bytes r' o' hns).trans (Mem.write_bytes_outside _ hin).symm
    · intro r' o' hs
      rw [hstale] at hs
      by_cases hin : Write.Has ⟨r, o, x.length, b, rest⟩ r' o'
      · refine ⟨g.addrKey a, ⟨r, o, x.length, b, rest⟩, ?_, hin, hk⟩
        rw [pendingAfter_store hstore, if_pos rfl]
        refine ⟨fun hread => hk ?_, Or.inl rfl⟩
        have hop : Op.store v a ∈ g.ops := h.mem_ops List.mem_cons_self
        exact hread.live hwf hout (mem_keys hop (Or.inl ⟨v, rfl⟩)) (h.block_lt rfl)
      · rw [if_neg hin] at hs
        exact hothers r' o' hin hs

/-- Every step of the original function is one or no step of the swept one. -/
theorem step (hwf : g.WellFormed) (hout : g.IsLiveOut out)
    (hleast : ∀ b < g.blocks.length, ∀ k ∈ out b, g.ReadBeforeOverwrite k b []) {g' : Region}
    (hg' : ∀ b, g'.block b = { g.block b with ops := (g.sweep (g.block b).ops (out b)).2 })
    (h : Swept g out pending stale s s') (hfaith : g.Overwrites pending s)
    (hstep : M.Step g g.hiddenAlloca s t events) :
    ∃ n ≤ 1, ∃ t', M.run g' g.hiddenAlloca n s' = (t', events) ∧
      Swept g out (g.pendingAfter pending s) (g.staleAfter out stale s) t t' := by
  have hconfines := h.confines.step (owners_hiddenAlloca hwf) (fun op hop => h.mem_ops hop) hstep
  have hone : ∀ t' : State M, M.step g' g.hiddenAlloca s' = some (t', events) →
      M.run g' g.hiddenAlloca 1 s' = (t', events) := by
    intro t' hstep'
    simp only [Machine.run, hstep', List.append_nil]
  obtain ⟨b', rest', env', m', w'⟩ := s'
  obtain rfl := h.block
  obtain rfl := h.env
  obtain rfl := h.world
  obtain rfl := h.rest
  cases hstep with
  | @alloca b r count ty rest env m w =>
    rw [pendingAfter_eq (by simp), staleAfter_eq (by simp)]
    refine ⟨1, le_rfl, _, hone _ rfl, ?_⟩
    have hfresh : m'.fresh r = m.fresh r := congrArg (RegionId.slot r) (congrFun h.count r)
    have hcount : (m'.alloc r).count = (m.alloc r).count := by
      show Function.update m'.count r (m'.count r + 1) = Function.update m.count r (m.count r + 1)
      rw [h.count]
    rw [hfresh]
    exact h.moveTo (h.suffix_tail rfl) hconfines h.next hcount h.bytes fun k hk => hk
  | @gep b r base ty indices rest env m w region offset is hbase hindices =>
    rw [pendingAfter_eq (by simp), staleAfter_eq (by simp)]
    refine ⟨1, le_rfl, _, hone _ (Machine.step_eq_of_step (.gep hbase hindices)), ?_⟩
    exact h.moveTo (h.suffix_tail rfl) hconfines h.next h.count h.bytes fun k hk => hk
  | @bitcast b r arg rest env m w x harg =>
    rw [pendingAfter_eq (by simp), staleAfter_eq (by simp)]
    refine ⟨1, le_rfl, _, hone _ (Machine.step_eq_of_step (.bitcast harg)), ?_⟩
    exact h.moveTo (h.suffix_tail rfl) hconfines h.next h.count h.bytes fun k hk => hk
  | @load b r address rest env m w region offset haddress =>
    rw [pendingAfter_eq (by simp), staleAfter_eq (by simp)]
    -- The bytes read are not stale, so both memories have them.
    have hread : m'.read region offset (M.sizeOf r.ty) = m.read region offset (M.sizeOf r.ty) := by
      apply List.map_congr_left
      intro i hi
      apply h.bytes
      apply h.unread hwf hout
      have hlt := List.mem_range.mp hi
      exact ⟨offset, haddress, by omega, by omega⟩
    refine ⟨1, le_rfl, _, hone _ (hread ▸ Machine.step_eq_of_step (.load haddress)), ?_⟩
    exact h.moveTo (h.suffix_tail rfl) hconfines h.next h.count h.bytes fun k hk hl =>
      hk (Finset.mem_union_left _ hl)
  | @store b v a rest env m w x r o hv ha =>
    exact h.step_store hwf hout hleast hfaith hv ha hconfines
  | @next b attrs opid results operands rest env m w args o event hargs hperform =>
    rw [pendingAfter_eq (by simp), staleAfter_eq (by simp)]
    have hclear := h.confines.args_clear (owners_hiddenAlloca hwf)
      (h.mem_ops List.mem_cons_self) (fun v hv => List.mem_append_left _ hv) (fun _ _ => rfl) hargs
    obtain ⟨mem', hperform', hnext, hcount, hbytes⟩ := h.perform hwf rfl hclear hperform
    obtain ⟨hops', hlive⟩ := sweep_generic (g := g) opid attrs results operands [] rest (out b)
    have hmoved : Swept g out pending stale
        (⟨b, rest, env.setAll results o.results, o.mem, o.world⟩ : State M)
        ⟨b, (g.sweep rest (out b)).2, env.setAll results o.results, mem', o.world⟩ :=
      h.moveTo (h.suffix_tail rfl) hconfines hnext hcount hbytes fun k hk hl => hk (hlive hl)
    refine ⟨1, le_rfl, _, hone _ ?_, hmoved⟩
    -- The function is left on both sides or on neither, and left with the same
    -- memory in sight.
    have hexit : (if (g.sweep rest (out b)).2 = [] then [Event.exit (visible g.hiddenAlloca mem')]
        else []) = if rest = [] then [.exit (visible g.hiddenAlloca o.mem)] else [] := by
      by_cases hrest : rest = []
      · subst hrest
        have hagree := hmoved.agree hwf fun k hk => h.live_exit hout rfl hk
        rw [if_pos rfl, ← visible_congr hagree]
        exact if_pos rfl
      · rw [if_neg hrest, if_neg (h.sweep_ne_nil hwf rfl hrest _)]
    show M.step g' g.hiddenAlloca ⟨b, (g.sweep (_ :: rest) (out b)).2, env, m', w⟩ = _
    rw [hops', ← hexit]
    exact Machine.step_eq_of_step (.next hargs hperform')
  | @jump b attrs opid results operands succs rest env m w args xs o event d hargs hperform hd
      hxs =>
    rw [pendingAfter_eq (by simp), staleAfter_eq (by simp)]
    have hclear := h.confines.args_clear (owners_hiddenAlloca hwf)
      (h.mem_ops List.mem_cons_self) (fun v hv => List.mem_append_left _ hv) (fun _ _ => rfl) hargs
    obtain ⟨mem', hperform', hnext, hcount, hbytes⟩ := h.perform hwf rfl hclear hperform
    obtain ⟨hops', hlive⟩ := sweep_generic (g := g) opid attrs results operands succs rest (out b)
    have hdest : d.dest ∈ g.succs b := h.dest_mem_succs hwf rfl (List.mem_of_getElem? hd)
    have hmoved : Swept g out pending stale
        (⟨d.dest, (g.block d.dest).ops,
          (env.setAll results o.results).setAll (g.block d.dest).params xs, o.mem, o.world⟩
          : State M)
        ⟨d.dest, (g.sweep (g.block d.dest).ops (out d.dest)).2,
          (env.setAll results o.results).setAll (g.block d.dest).params xs, mem', o.world⟩ := by
      apply h.moveTo ⟨[], rfl⟩ hconfines hnext hcount hbytes
      -- What is live where control goes is live at the end of the block.
      intro k hk hl
      apply hk
      apply hlive
      rw [h.rest_eq_nil hwf rfl (List.ne_nil_of_mem (List.mem_of_getElem? hd))]
      exact (hout b (h.block_lt rfl) k).mpr (Or.inr ⟨d.dest, hdest, hl⟩)
    have hparams : (g'.block d.dest).params = (g.block d.dest).params := by rw [hg']
    have hblock : (g'.block d.dest).ops = (g.sweep (g.block d.dest).ops (out d.dest)).2 := by
      rw [hg']
    refine ⟨1, le_rfl, _, hone _ ?_, hmoved⟩
    show M.step g' g.hiddenAlloca ⟨b, (g.sweep (_ :: rest) (out b)).2, env, m', w⟩ = _
    rw [hops', ← hblock, ← hparams]
    exact Machine.step_eq_of_step (.jump hargs hperform' hd hxs)

/-- And so for whole runs. -/
theorem run (hwf : g.WellFormed) (hout : g.IsLiveOut out)
    (hleast : ∀ b < g.blocks.length, ∀ k ∈ out b, g.ReadBeforeOverwrite k b []) {g' : Region}
    (hg' : ∀ b, g'.block b = { g.block b with ops := (g.sweep (g.block b).ops (out b)).2 })
    (n : Nat) (h : Swept g out pending stale s s') (hfaith : g.KeysFaithful n pending s) :
    g.StaleUnread out n stale s ∧ ∃ m ≤ n,
      (M.run g' g.hiddenAlloca m s').2 = (M.run g g.hiddenAlloca n s).2 ∧
      (M.run g' g.hiddenAlloca m s').1.env = (M.run g g.hiddenAlloca n s).1.env := by
  induction n generalizing pending stale s s' with
  | zero => exact ⟨trivial, 0, le_rfl, rfl, h.env⟩
  | succ n ih =>
    obtain ⟨hover, hfaith⟩ := hfaith
    refine ⟨⟨fun r o => h.unread hwf hout, fun t events hstep => ?_⟩, ?_⟩
    · obtain ⟨m, -, t', -, hswept⟩ := h.step hwf hout hleast hg' hover hstep
      exact (ih hswept (hfaith t events hstep)).1
    cases hs : M.step g g.hiddenAlloca s with
    | none =>
      refine ⟨0, Nat.zero_le _, ?_⟩
      rw [Machine.run, Machine.run, hs]
      exact ⟨rfl, h.env⟩
    | some step =>
      obtain ⟨t, events⟩ := step
      have hstep := Machine.step_of_step_eq hs
      obtain ⟨m, hm, t', hrun, hswept⟩ := h.step hwf hout hleast hg' hover hstep
      obtain ⟨-, k, hk, hevents, henv⟩ := ih hswept (hfaith t events hstep)
      refine ⟨m + k, by omega, ?_⟩
      rw [Machine.run_add, hrun, Machine.run, hs]
      exact ⟨congrArg (events ++ ·) hevents, henv⟩

end Swept

/-! ## The pass -/

/-- Dead-store elimination is right about every run whose stores cancel in
    memory whenever they cancel by key: no byte a deleted store would have
    written is read, and the swept function runs with the same events (loaded
    bytes, calls with the memory in sight, memory at the exit) and values. -/
theorem dse_preserves (f : Function) (M : Machine) (e : Entry M) (n : Nat)
    (h : f.region.KeysFaithful n (fun _ _ => False) (e.state f.region)) :
    ∃ g out, f.region.dseRegion = some g ∧ f.region.liveOut = some out ∧
      f.region.StaleUnread out n (fun _ _ => False) (e.state f.region) ∧
      ∃ m ≤ n, (M.run g f.region.hiddenAlloca m (e.state g)).2
          = (M.run f.region f.region.hiddenAlloca n (e.state f.region)).2 ∧
        (M.run g f.region.hiddenAlloca m (e.state g)).1.env
          = (M.run f.region f.region.hiddenAlloca n (e.state f.region)).1.env := by
  obtain ⟨g, out, hdse, hlive, hout, hblock⟩ := exists_dseRegion (g := f.region)
  refine ⟨g, out, hdse, hlive, ?_⟩
  have hparams : (g.block 0).params = (f.region.block 0).params := by rw [hblock]
  have hstart : Swept f.region out (fun _ _ => False) (fun _ _ => False) (e.state f.region)
      (e.state g) := by
    refine ⟨rfl, ?_, ?_, rfl, ⟨[], rfl⟩, confines_entry e ((owners_hiddenAlloca f.wf).params 0),
      rfl, rfl, fun _ _ _ => rfl,
      fun _ _ h => h.elim, fun _ _ h => h.elim⟩
    · show (g.block 0).ops = _
      rw [hblock]
      rfl
    · show Vals.setAll _ (g.block 0).params _ = _
      rw [hparams]
      rfl
  exact hstart.run f.wf hout (fun b hb k => liveOut_readBeforeOverwrite f.wf hlive hb) hblock n h

/-! ### Two narrow functions

A function that stores two integers through the same pointer and loads it:
with equal widths the first store is deleted, and rightly so; when the second
is narrower it is deleted all the same. -/

/-- Only `ret` is evaluated, and nothing is called. -/
def bareMachine : Machine where
  World := Unit
  sizeOf
    | .int w _ => w / 8
    | _ => 8
  gepOffset _ _ := 0
  isGlobal _ := False
  eval id _ _ := if id = .ret then some ([], 0) else none
  call _ _ _ _ _ := none
  eval_mentions := by
    intro id attrs args results choice h v hv
    split at h
    · cases h
      exact absurd hv List.not_mem_nil
    · cases h
  call_grows h := by cases h
  call_bounded h := by cases h
  call_hidden h := by cases h

def storeTwice (second : Ty) : Region :=
  let p : Value := ⟨0, .pointer⟩
  let x : Value := ⟨1, .i 64⟩
  let y : Value := ⟨2, second⟩
  let z : Value := ⟨3, .i 64⟩
  ⟨[⟨[p, x, y], [.store x p, .store y p, .load z p, .generic .ret 0 [] [z] []]⟩]⟩

/-- A call of it on fresh memory: all ones in `x`, all twos in `y`. -/
def storeTwiceEntry (bytes : Nat) : Entry bareMachine where
  args := [pointer (.external 0) 0, List.replicate 8 (.raw 1), List.replicate bytes (.raw 2)]
  mem := ⟨1, fun _ => 0, fun _ _ => .raw 0⟩
  world := ()
  fresh _ := rfl
  bounded := by
    intro r o r' o' i h
    cases h
  args_bounded := by
    intro a ha r hm
    simp only [List.mem_cons, List.not_mem_nil, or_false] at ha
    rcases ha with rfl | rfl | rfl
    · rw [mentions_pointer.mp hm]
      exact Nat.zero_lt_one
    · obtain ⟨o, i, hm⟩ := hm
      cases (List.mem_replicate.mp hm).2
    · obtain ⟨o, i, hm⟩ := hm
      cases (List.mem_replicate.mp hm).2
  globals _ h := h.elim

/-- The loaded values among the events. -/
def loaded (events : List Event) : List Val :=
  events.filterMap fun
    | .read x => some x
    | _ => none

/-- A store of four bytes makes the pass delete the eight-byte store before
    it, and the load sees other bytes than in the original function. -/
theorem dse_narrower_store : ¬ ∀ (f : Function) (M : Machine) (e : Entry M) (n : Nat),
    ∃ g, f.region.dseRegion = some g ∧
      ∃ m, loaded (M.run g f.region.hiddenAlloca m (e.state g)).2
        = loaded (M.run f.region f.region.hiddenAlloca n (e.state f.region)).2 := by
  intro h
  obtain ⟨g, hg, m, hm⟩ := h ⟨storeTwice (.i 32), by decide⟩ bareMachine (storeTwiceEntry 4) 3
  have hdse : (storeTwice (.i 32)).dseRegion = some ⟨[⟨[⟨0, .pointer⟩, ⟨1, .i 64⟩, ⟨2, .i 32⟩],
      [.store ⟨2, .i 32⟩ ⟨0, .pointer⟩, .load ⟨3, .i 64⟩ ⟨0, .pointer⟩,
        .generic .ret 0 [] [⟨3, .i 64⟩] []]⟩]⟩ := by decide
  rw [hdse] at hg
  obtain rfl := Option.some.inj hg
  match m with
  | 0 => exact absurd hm (by decide)
  | 1 => exact absurd hm (by decide)
  | 2 => exact absurd hm (by decide)
  | m + 3 =>
    -- The swept function has returned by then.
    rw [Nat.add_comm m 3, Machine.run_add, Machine.run_stopped rfl] at hm
    exact absurd hm (by decide)

theorem keysFaithful_succ {g : Region} {n : Nat} {pending : PendingWrites} {s s' : State M}
    {events : List Event} (hover : g.Overwrites pending s)
    (hstep : M.step g g.hiddenAlloca s = some (s', events))
    (h : g.KeysFaithful n (g.pendingAfter pending s) s') :
    g.KeysFaithful (n + 1) pending s := by
  refine ⟨hover, fun t events' ht => ?_⟩
  have heq := Machine.step_eq_of_step ht
  rw [hstep] at heq
  cases heq
  exact h

/-- With two eight-byte stores the deletion is right. -/
theorem dse_preserves_same_width : ∃ g, (storeTwice (.i 64)).dseRegion = some g ∧
    ∃ m ≤ 4, (bareMachine.run g (storeTwice (.i 64)).hiddenAlloca m
        ((storeTwiceEntry 8).state g)).2
      = (bareMachine.run (storeTwice (.i 64)) (storeTwice (.i 64)).hiddenAlloca 4
        ((storeTwiceEntry 8).state (storeTwice (.i 64)))).2 := by
  have hfaithful : (storeTwice (.i 64)).KeysFaithful 4 (fun _ _ => False)
      ((storeTwiceEntry 8).state (storeTwice (.i 64))) := by
    apply keysFaithful_succ (fun k new _ _ old hold => hold.elim) rfl
    apply keysFaithful_succ _ rfl
    · apply keysFaithful_succ (fun k new hstore => by cases hstore) rfl
      exact keysFaithful_succ (fun k new hstore => by cases hstore) rfl trivial
    · intro k new hstore _ old hold r o hhas
      cases hstore
      rw [pendingAfter_store rfl, if_pos rfl] at hold
      rcases hold.2 with rfl | hold
      · exact hhas
      · exact hold.elim
  obtain ⟨g, out, hg, -, -, m, hm, hevents, -⟩ :=
    dse_preserves ⟨storeTwice (.i 64), by decide⟩ bareMachine (storeTwiceEntry 8) 4 hfaithful
  exact ⟨g, hg, m, hm, hevents⟩

end Region

end Crabbit.Llvm
