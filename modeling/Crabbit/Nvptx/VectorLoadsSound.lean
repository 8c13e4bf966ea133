/-
  Crabbit.Nvptx.VectorLoadsSound

  When the lanes of a vector load are what the scalar loads read.

  A load moves up to the leader of its group.  Stores and calls end an era,
  so nothing of theirs is in between; an atomic operation, a fence or inline
  assembly may be.  Where none of these changes what a later load of its era
  reads, every lane is the scalar load's, in every pass through every block.
-/

import Crabbit.Lib.ByteMemory
import Crabbit.Nvptx.AddrFoldSound
import Crabbit.Nvptx.VectorLoads

namespace Crabbit.Nvptx

open Crabbit.Lib (ByteMemory)
open Crabbit.Llvm (Value Ty)

/-! ## Passes through a block -/

/-- What leaves the shared memory a thread sees as it is: it writes nothing
    itself, and synchronises with no other thread of the block. -/
def BlockOp.keepsMemory : BlockOp → Bool
  | .load .. | .pure .. => true
  | _ => false

/-- One thread's pass through a block.  Each value is assigned once in it, so
    that one environment has them all; `mem i` is the shared memory as the
    thread sees it at position `i`, the writes of the others included. -/
structure Pass (ops : List BlockOp) where
  env : Env
  mem : Nat → ByteMemory
  keeps : ∀ i op, ops[i]? = some op → op.keepsMemory = true → mem (i + 1) = mem i

/-- The load at a position is one the planner groups. -/
def Planned (c : VecContext) (ops : List BlockOp) (i : Nat) (plan : FoldedAddr) (cls : RegClass)
    (symbol : String) : Prop :=
  ∃ result address, ops[i]? = some (.load result address false) ∧
    candidate c result address = some (plan, cls, symbol)

/-- What a scalar load through a plan reads. -/
def Pass.scalar {ops : List BlockOp} (pass : Pass ops) (i : Nat) (plan : FoldedAddr)
    (bytes : Nat) : List UInt8 :=
  ByteMemory.load (pass.mem i) (plan.value pass.env).toNat bytes

/-- Atomic operations, fences and inline assembly change nothing that a later
    load of the same era reads. -/
def Pass.Quiet {ops : List BlockOp} (pass : Pass ops) (c : VecContext) : Prop :=
  ∀ i j op plan cls symbol elem, i < j → ops[i]? = some op → op.keepsMemory = false →
    Planned c ops j plan cls symbol → cls.elem = some elem →
    (∀ p op', i ≤ p → p < j → ops[p]? = some op' → op'.endsEra = false) →
    pass.scalar (i + 1) plan elem = pass.scalar i plan elem

/-! ## Groups -/

/-- The address a vector load accesses. -/
def VecGroup.address (g : VecGroup) (env : Env) : BitVec 64 :=
  g.plan.value env + BitVec.ofInt 64 ((g.parts.map Prod.fst).headD 0)

/-- What a lane of the vector load gets. -/
def VecGroup.lane {ops : List BlockOp} (g : VecGroup) (pass : Pass ops) (i : Nat) : List UInt8 :=
  ((ByteMemory.load (pass.mem g.leader) (g.address pass.env).toNat g.bytes).drop
    (i * g.elem)).take g.elem

/-- A group covers consecutive offsets, is aligned to its size, and has in
    each lane what the scalar load would have read at its own position. -/
structure VecGroup.Exact (c : VecContext) {ops : List BlockOp} (pass : Pass ops) (g : VecGroup) :
    Prop where
  lanes : g.parts.length = 2 ∨ g.parts.length = 4
  consecutive : ∃ start, g.parts.map Prod.fst = laneOffsets g.elem start g.parts.length
  aligned : g.bytes ∣ (g.address pass.env).toNat
  reads : ∀ i off member, g.parts[i]? = some (off, member) →
    ∃ plan symbol, Planned c ops member.order plan g.cls symbol ∧ plan.offset.toInt = off ∧
      g.leader ≤ member.order ∧ g.lane pass i = pass.scalar member.order plan g.elem

/-- Addresses of shared globals are aligned as declared, the raises of all
    blocks of the module included. -/
def RootsAligned (c : VecContext) (env : Env) (decl : String → SharedGlobal)
    (groups : List VecGroup) : Prop :=
  ∀ root symbol, c.addressOf root = some symbol →
    (decl symbol).declared (alignRaise groups symbol) ∣ env.bits root

/-! ## Alignment -/

theorem two_pow_dvd_of_ctz {x : BitVec 64} {n : Nat} (h : n ≤ x.ctz.toNat) : 2 ^ n ∣ x.toNat := by
  apply Nat.dvd_of_mod_eq_zero
  apply Nat.eq_of_testBit_eq
  intro i
  rw [Nat.testBit_mod_two_pow, Nat.zero_testBit]
  by_cases hi : i < n
  · have hbit : x.getLsbD i = false := BitVec.getLsbD_false_of_lt_ctz (by omega)
    rw [BitVec.testBit_toNat, hbit, Bool.and_false]
  · simp only [hi, decide_false, Bool.false_and]

/-- Powers of two up to 16 divide both sides of a 64-bit operation or
    neither. -/
theorem two_pow_dvd_two_pow_64 {n : Nat} (hn : n ≤ 4) : 2 ^ n ∣ 2 ^ 64 :=
  Nat.pow_dvd_pow 2 (by omega)

theorem Term.dvd_scale {term : Term} {n : Nat} (hn : n ≤ 4) (h : 2 ^ n ≤ term.align) :
    2 ^ n ∣ term.scale.toNat := by
  have habs : 2 ^ n ∣ term.scale.abs.toNat := by
    unfold align at h
    split at h
    · rename_i hzero
      rw [hzero]
      exact Nat.dvd_zero _
    · have hle : 2 ^ n ≤ 2 ^ min term.scale.abs.ctz.toNat 4 := Nat.le_trans h (Nat.min_le_left _ _)
      have := (Nat.pow_le_pow_iff_right (by decide)).mp hle
      exact two_pow_dvd_of_ctz (by omega)
  rw [BitVec.toNat_abs] at habs
  split at habs
  · have hlt := term.scale.isLt
    have hsub := Nat.dvd_sub (two_pow_dvd_two_pow_64 hn) habs
    rwa [show 2 ^ 64 - (2 ^ 64 - term.scale.toNat) = term.scale.toNat by omega] at hsub
  · exact habs

theorem foldl_min_le (l : List Nat) (a : Nat) :
    l.foldl min a ≤ a ∧ ∀ x ∈ l, l.foldl min a ≤ x := by
  induction l generalizing a with
  | nil => exact ⟨Nat.le_refl a, fun _ h => absurd h List.not_mem_nil⟩
  | cons b l ih =>
      obtain ⟨hle, hall⟩ := ih (min a b)
      rw [List.foldl_cons]
      refine ⟨by omega, fun x hx => ?_⟩
      rcases List.mem_cons.mp hx with rfl | hx
      · omega
      · exact hall x hx

theorem dvd_toNat_add {n : Nat} (hn : n ≤ 4) {a b : BitVec 64} (ha : 2 ^ n ∣ a.toNat)
    (hb : 2 ^ n ∣ b.toNat) : 2 ^ n ∣ (a + b).toNat := by
  rw [BitVec.toNat_add, Nat.dvd_mod_iff (two_pow_dvd_two_pow_64 hn)]
  exact Nat.dvd_add ha hb

/-- The dynamic part keeps the alignment the planner asks of it. -/
theorem dvd_termSum (env : Env) {n : Nat} (hn : n ≤ 4) (terms : List Term)
    (h : ∀ term ∈ terms, 2 ^ n ≤ term.align) : 2 ^ n ∣ (termSum env terms).toNat := by
  induction terms with
  | nil => exact Nat.dvd_zero _
  | cons term terms ih =>
      rw [termSum]
      apply dvd_toNat_add hn
      · rw [BitVec.toNat_mul, Nat.dvd_mod_iff (two_pow_dvd_two_pow_64 hn)]
        exact Nat.dvd_mul_left_of_dvd (Term.dvd_scale hn (h term List.mem_cons_self)) _
      · exact ih fun t ht => h t (List.mem_cons_of_mem _ ht)

theorem le_align_of_le_dynamicAlign {terms : List Term} {n : Nat} (h : n ≤ dynamicAlign terms) :
    ∀ term ∈ terms, n ≤ term.align := fun _ hterm =>
  Nat.le_trans h ((foldl_min_le _ 16).2 _ (List.mem_map_of_mem hterm))

/-! ## Buckets -/

/-- The era a position of a block is in. -/
def eraAt (ops : List BlockOp) (i : Nat) : Nat := (ops.take i).countP BlockOp.endsEra

theorem eraAt_succ {ops : List BlockOp} {i : Nat} {op : BlockOp} (h : ops[i]? = some op) :
    eraAt ops (i + 1) = eraAt ops i + (if op.endsEra then 1 else 0) := by
  rw [eraAt, eraAt, List.take_add_one, h, List.countP_append]
  cases hera : op.endsEra <;> simp [hera]

theorem eraAt_mono (ops : List BlockOp) {i j : Nat} (h : i ≤ j) : eraAt ops i ≤ eraAt ops j :=
  List.Sublist.countP_le (List.take_sublist_take_left h)

/-- A member of a bucket is a planned load of its era, base and class. -/
structure Member.Sound (c : VecContext) (ops : List BlockOp) (bucket : Bucket) (off : Int)
    (member : Member) : Prop where
  planned : ∃ plan, Planned c ops member.order plan bucket.key.cls bucket.symbol ∧
    plan.root = bucket.key.root ∧ plan.terms = bucket.key.terms ∧ plan.offset.toInt = off
  era : eraAt ops member.order = bucket.key.era

structure Bucket.Sound (c : VecContext) (ops : List BlockOp) (bucket : Bucket) : Prop where
  addressOf : c.addressOf bucket.key.root = some bucket.symbol
  members : ∀ p ∈ bucket.members, p.2.Sound c ops bucket p.1
  sorted : (bucket.members.map Prod.fst).Pairwise (· < ·)

structure BucketsSound (c : VecContext) (ops : List BlockOp) (buckets : List Bucket) : Prop where
  each : ∀ bucket ∈ buckets, bucket.Sound c ops
  keys : (buckets.map Bucket.key).Nodup

theorem candidate_addressOf {c : VecContext} {result address : Value} {plan : FoldedAddr}
    {cls : RegClass} {symbol : String} (h : candidate c result address = some (plan, cls, symbol)) :
    c.addressOf plan.root = some symbol := by
  obtain ⟨plan', -, h⟩ := Option.bind_eq_some_iff.mp h
  split at h
  · cases h
  · obtain ⟨cls', -, h⟩ := Option.bind_eq_some_iff.mp h
    obtain ⟨symbol', hsymbol, h⟩ := Option.bind_eq_some_iff.mp h
    split at h
    · cases h
    · cases h
      exact hsymbol

theorem mem_insertMember {offset : Int} {member : Member} {members : Members} {p : Int × Member}
    (h : p ∈ insertMember offset member members) : p = (offset, member) ∨ p ∈ members := by
  induction members with
  | nil => exact .inl (List.mem_singleton.mp h)
  | cons m members ih =>
      unfold insertMember at h
      split at h
      · exact List.mem_cons.mp h
      · split at h
        · exact .inr h
        · rcases List.mem_cons.mp h with rfl | h
          · exact .inr List.mem_cons_self
          · exact (ih h).imp_right (List.mem_cons_of_mem _)

theorem sorted_insertMember (offset : Int) (member : Member) {members : Members}
    (h : (members.map Prod.fst).Pairwise (· < ·)) :
    ((insertMember offset member members).map Prod.fst).Pairwise (· < ·) := by
  induction members with
  | nil => exact List.pairwise_singleton _ _
  | cons m members ih =>
      obtain ⟨hm, hrest⟩ := List.pairwise_cons.mp h
      unfold insertMember
      split
      · rename_i hlt
        refine List.pairwise_cons.mpr ⟨fun o ho => ?_, h⟩
        rcases List.mem_cons.mp ho with rfl | ho
        · exact hlt
        · exact Int.lt_trans hlt (hm o ho)
      · split
        · exact h
        · rename_i hlt hne
          refine List.pairwise_cons.mpr ⟨fun o ho => ?_, ih hrest⟩
          obtain ⟨p, hp, rfl⟩ := List.mem_map.mp ho
          rcases mem_insertMember hp with rfl | hp
          · show m.1 < offset
            omega
          · exact hm _ (List.mem_map_of_mem hp)

section AddToBucket

variable {c : VecContext} {ops : List BlockOp} {key : BucketKey} {symbol : String} {offset : Int}
  {member : Member}

theorem Bucket.Sound.insert {bucket : Bucket} (h : bucket.Sound c ops)
    (hmember : member.Sound c ops bucket offset) :
    Bucket.Sound c ops { bucket with members := insertMember offset member bucket.members } where
  addressOf := h.addressOf
  members p hp := by
    rcases mem_insertMember hp with rfl | hp
    · exact ⟨hmember.planned, hmember.era⟩
    · exact ⟨(h.members p hp).planned, (h.members p hp).era⟩
  sorted := sorted_insertMember offset member h.sorted

/-- Buckets of one key are of one symbol. -/
theorem Bucket.Sound.congr {b b' : Bucket} (h : b.Sound c ops) (h' : b'.Sound c ops)
    (hkey : b.key = b'.key) : b.symbol = b'.symbol := by
  have := h.addressOf
  rw [hkey, h'.addressOf] at this
  exact (Option.some.inj this).symm

theorem mem_key_addToBucket {buckets : List Bucket} {b : Bucket}
    (h : b ∈ addToBucket key symbol offset member buckets) :
    b.key = key ∨ b ∈ buckets := by
  induction buckets with
  | nil => exact .inl (by rw [List.mem_singleton.mp h])
  | cons bucket buckets ih =>
      unfold addToBucket at h
      split at h
      · rename_i hkey
        rcases List.mem_cons.mp h with rfl | h
        · exact .inl hkey
        · exact .inr (List.mem_cons_of_mem _ h)
      · rcases List.mem_cons.mp h with rfl | h
        · exact .inr List.mem_cons_self
        · exact (ih h).imp_right (List.mem_cons_of_mem _)

theorem BucketsSound.add {buckets : List Bucket} (h : BucketsSound c ops buckets)
    (hnew : Bucket.Sound c ops ⟨key, symbol, [(offset, member)]⟩) :
    BucketsSound c ops (addToBucket key symbol offset member buckets) := by
  induction buckets with
  | nil =>
      refine ⟨fun b hb => ?_, List.nodup_singleton _⟩
      obtain rfl := List.mem_singleton.mp hb
      exact hnew
  | cons bucket buckets ih =>
      have hbucket := h.each bucket List.mem_cons_self
      obtain ⟨hfresh, hkeys⟩ := List.nodup_cons.mp h.keys
      have hrest := ih ⟨fun b hb => h.each b (List.mem_cons_of_mem _ hb), hkeys⟩
      unfold addToBucket
      split
      · rename_i hkey
        have hsymbol : symbol = bucket.symbol := hnew.congr hbucket hkey.symm
        have hmember := hnew.members (offset, member) List.mem_cons_self
        refine ⟨fun b hb => ?_, h.keys⟩
        rcases List.mem_cons.mp hb with rfl | hb
        · apply hbucket.insert
          refine ⟨?_, by rw [hkey]; exact hmember.era⟩
          rw [hkey, ← hsymbol]
          exact hmember.planned
        · exact h.each b (List.mem_cons_of_mem _ hb)
      · rename_i hkey
        refine ⟨fun b hb => ?_, ?_⟩
        · rcases List.mem_cons.mp hb with rfl | hb
          · exact hbucket
          · exact hrest.each b hb
        · refine List.nodup_cons.mpr ⟨fun hmem => ?_, hrest.keys⟩
          obtain ⟨b, hb, hbkey⟩ := List.mem_map.mp hmem
          rcases mem_key_addToBucket hb with hb | hb
          · exact hkey (hbkey ▸ hb)
          · exact hfresh (List.mem_map.mpr ⟨b, hb, hbkey⟩)

end AddToBucket

/-- A position of the block gets into the bucket of its era. -/
theorem bucketsAfter_sound {c : VecContext} {ops : List BlockOp} {buckets : List Bucket}
    {order : Nat} {op : BlockOp} (hop : ops[order]? = some op) (h : BucketsSound c ops buckets) :
    BucketsSound c ops (bucketsAfter c order (eraAt ops order) op buckets) := by
  unfold bucketsAfter
  split
  · rename_i result address
    split
    · rename_i plan cls symbol hcandidate
      apply h.add
      refine ⟨candidate_addressOf hcandidate, fun p hp => ?_, List.pairwise_singleton _ _⟩
      obtain rfl := List.mem_singleton.mp hp
      exact ⟨⟨plan, ⟨result, address, hop, hcandidate⟩, rfl, rfl, rfl⟩, rfl⟩
    · exact h
  · exact h

theorem collect_sound {c : VecContext} {ops : List BlockOp} (rest : List BlockOp) :
    ∀ (order : Nat) (buckets : List Bucket), ops.drop order = rest → BucketsSound c ops buckets →
      BucketsSound c ops (collect c rest order (eraAt ops order) buckets) := by
  induction rest with
  | nil => exact fun _ _ _ h => h
  | cons op rest ih =>
      intro order buckets hdrop h
      have hop : ops[order]? = some op := by
        rw [← List.head?_drop, hdrop, List.head?_cons]
      have hrest : ops.drop (order + 1) = rest := by
        rw [← List.tail_drop, hdrop, List.tail_cons]
      unfold collect
      split
      · rename_i hends
        have hera : eraAt ops (order + 1) = eraAt ops order + 1 := by
          rw [eraAt_succ hop, if_pos hends]
        rw [← hera]
        exact ih (order + 1) buckets hrest h
      · rename_i hends
        have hera : eraAt ops (order + 1) = eraAt ops order := by
          rw [eraAt_succ hop, if_neg hends, Nat.add_zero]
        have hnext := ih (order + 1) _ hrest (bucketsAfter_sound hop h)
        rw [hera] at hnext
        exact hnext

/-! ## Group starts -/

theorem mem_laneOffsets {elem : Nat} {start off : Int} {lanes : Nat} :
    off ∈ laneOffsets elem start lanes ↔ ∃ lane, lane < lanes ∧ off = start + lane * elem := by
  simp only [laneOffsets, List.mem_map, List.mem_range, eq_comm (a := off)]

theorem nodup_laneOffsets {elem : Nat} (helem : 0 < elem) (start : Int) (lanes : Nat) :
    (laneOffsets elem start lanes).Nodup := by
  apply List.nodup_range.map_on
  intro a _ b _ hab
  have hmul : (a : Int) * elem = b * elem := by omega
  have := Int.eq_of_mul_eq_mul_right (by omega) hmul
  omega

/-- What a group of a bucket is made of. -/
structure Starts (elem dynAlign : Nat) (offsets : List Int) (start : Int) (lanes : Nat) : Prop where
  count : lanes = 2 ∨ lanes = 4 ∧ elem = 4
  align : lanes * elem ≤ dynAlign
  start_dvd : ((lanes * elem : Nat) : Int) ∣ start
  present : ∀ off ∈ laneOffsets elem start lanes, off ∈ offsets

theorem lanesAt_sound {elem dynAlign : Nat} {offsets taken : List Int} {start : Int}
    (hstart : start ∈ offsets) (hfresh : start ∉ taken)
    (h : lanesAt elem dynAlign offsets taken start ≠ 0) :
    Starts elem dynAlign offsets start (lanesAt elem dynAlign offsets taken start) ∧
      ∀ off ∈ laneOffsets elem start (lanesAt elem dynAlign offsets taken start), off ∉ taken := by
  unfold lanesAt at h ⊢
  split
  · rename_i hquad
    obtain ⟨rfl, halign, hmod, hfree⟩ := hquad
    have hoff : ∀ off ∈ laneOffsets 4 start 4, off ∈ offsets ∧ off ∉ taken := by
      intro off hoff
      have hsplit : laneOffsets 4 start 4 = start :: (laneOffsets 4 start 4).tail := by
        simp [laneOffsets, List.range_succ]
      rw [hsplit] at hoff
      rcases List.mem_cons.mp hoff with rfl | hoff
      · exact ⟨hstart, hfresh⟩
      · exact hfree off hoff
    exact ⟨⟨.inr ⟨rfl, rfl⟩, halign, Int.dvd_of_tmod_eq_zero hmod, fun off h => (hoff off h).1⟩,
      fun off h => (hoff off h).2⟩
  · rename_i hquad
    rw [if_neg hquad] at h
    split
    · rename_i hpair
      obtain ⟨halign, hmod, hpresent, hfree⟩ := hpair
      have hoff : ∀ off ∈ laneOffsets elem start 2, off ∈ offsets ∧ off ∉ taken := by
        intro off hoff
        obtain ⟨lane, hlane, rfl⟩ := mem_laneOffsets.mp hoff
        obtain rfl | rfl : lane = 0 ∨ lane = 1 := by omega
        · rw [show start + ((0 : Nat) : Int) * elem = start by omega]
          exact ⟨hstart, hfresh⟩
        · rw [show start + ((1 : Nat) : Int) * elem = start + elem by omega]
          exact ⟨hpresent, hfree⟩
      exact ⟨⟨.inl rfl, halign, Int.dvd_of_tmod_eq_zero hmod, fun off h => (hoff off h).1⟩,
        fun off h => (hoff off h).2⟩
    · rename_i hpair
      rw [if_neg hpair] at h
      exact absurd rfl h

/-- Groups are made of present offsets, each in one lane of one group. -/
theorem groupStarts_sound {elem : Nat} (dynAlign : Nat) (helem : 0 < elem) {offsets : List Int}
    (starts : List Int) (hmem : ∀ start ∈ starts, start ∈ offsets) : ∀ taken : List Int,
    (∀ p ∈ groupStarts elem dynAlign offsets starts taken,
      Starts elem dynAlign offsets p.1 p.2) ∧
    ((groupStarts elem dynAlign offsets starts taken).flatMap fun p =>
      laneOffsets elem p.1 p.2).Nodup ∧
    ∀ off ∈ (groupStarts elem dynAlign offsets starts taken).flatMap fun p =>
      laneOffsets elem p.1 p.2, off ∉ taken := by
  induction starts with
  | nil => exact fun _ => ⟨fun _ h => absurd h List.not_mem_nil, List.nodup_nil,
      fun _ h => absurd h List.not_mem_nil⟩
  | cons start starts ih =>
      have ih := ih fun s hs => hmem s (List.mem_cons_of_mem _ hs)
      intro taken
      unfold groupStarts
      split
      · exact ih taken
      · rename_i hfresh
        simp only
        split
        · exact ih taken
        · rename_i hlanes
          obtain ⟨hstarts, hfree⟩ :=
            lanesAt_sound (hmem start List.mem_cons_self) hfresh hlanes
          obtain ⟨hall, hnodup, hdisjoint⟩ :=
            ih (taken ++ laneOffsets elem start (lanesAt elem dynAlign offsets taken start))
          refine ⟨fun p hp => ?_, ?_, fun off hoff => ?_⟩
          · rcases List.mem_cons.mp hp with rfl | hp
            · exact hstarts
            · exact hall p hp
          · rw [List.flatMap_cons]
            refine List.nodup_append.mpr ⟨nodup_laneOffsets helem _ _, hnodup, ?_⟩
            intro off hoff off' hoff' heq
            subst heq
            exact hdisjoint off hoff' (List.mem_append_right _ hoff)
          · rw [List.flatMap_cons] at hoff
            rcases List.mem_append.mp hoff with hoff | hoff
            · exact hfree off hoff
            · exact fun htaken => hdisjoint off hoff (List.mem_append_left _ htaken)

/-! ## Members of a group -/

theorem groupAt_parts_offsets {bucket : Bucket} {elem : Nat} {start : Int} {lanes : Nat}
    (h : ∀ off ∈ laneOffsets elem start lanes, off ∈ bucket.members.map Prod.fst) :
    (groupAt bucket elem start lanes).parts.map Prod.fst = laneOffsets elem start lanes := by
  unfold groupAt
  generalize laneOffsets elem start lanes = offsets at h
  induction offsets with
  | nil => rfl
  | cons off offsets ih =>
      have hrest := ih fun o ho => h o (List.mem_cons_of_mem _ ho)
      obtain ⟨p, hp, hoff⟩ := List.mem_map.mp (h off List.mem_cons_self)
      have hsome : (bucket.members.lookup off).isSome := by
        rw [List.lookup_isSome_iff]
        exact ⟨p, hp, beq_iff_eq.mpr hoff.symm⟩
      obtain ⟨m, hm⟩ := Option.isSome_iff_exists.mp hsome
      simp only [List.filterMap_cons, hm, Option.map_some, List.map_cons] at hrest ⊢
      rw [hrest]

theorem mem_of_lookup {members : Members} {off : Int} {m : Member}
    (h : members.lookup off = some m) : (off, m) ∈ members := by
  obtain ⟨l, l', rfl, -⟩ := List.lookup_eq_some_iff.mp h
  exact List.mem_append_right _ List.mem_cons_self

theorem mem_groupAt_parts {bucket : Bucket} {elem : Nat} {start : Int} {lanes : Nat}
    {p : Int × Member} (h : p ∈ (groupAt bucket elem start lanes).parts) :
    p ∈ bucket.members ∧ p.1 ∈ laneOffsets elem start lanes := by
  obtain ⟨off, hoff, h⟩ := List.mem_filterMap.mp h
  obtain ⟨m, hm, rfl⟩ := Option.map_eq_some_iff.mp h
  exact ⟨mem_of_lookup hm, hoff⟩

theorem foldl_min_order (parts : Members) (a : Nat) :
    let least := parts.foldl (fun best p => min best p.2.order) a
    least ≤ a ∧ (∀ p ∈ parts, least ≤ p.2.order) ∧ (least = a ∨ ∃ p ∈ parts, least = p.2.order) := by
  induction parts generalizing a with
  | nil => exact ⟨Nat.le_refl a, fun _ h => absurd h List.not_mem_nil, .inl rfl⟩
  | cons q parts ih =>
      obtain ⟨hle, hall, hmem⟩ := ih (min a q.2.order)
      refine ⟨Nat.le_trans hle (Nat.min_le_left _ _), fun p hp => ?_, ?_⟩
      · rcases List.mem_cons.mp hp with rfl | hp
        · exact Nat.le_trans hle (Nat.min_le_right _ _)
        · exact hall p hp
      · rcases hmem with heq | ⟨p, hp, heq⟩
        · rcases Nat.le_total a q.2.order with h | h
          · exact .inl (heq.trans (Nat.min_eq_left h))
          · exact .inr ⟨q, List.mem_cons_self, heq.trans (Nat.min_eq_right h)⟩
        · exact .inr ⟨p, List.mem_cons_of_mem _ hp, heq⟩

/-- The leader is a member, and the first of them. -/
theorem leaderOf_sound {parts : Members} (h : parts ≠ []) :
    (∀ p ∈ parts, leaderOf parts ≤ p.2.order) ∧ ∃ p ∈ parts, leaderOf parts = p.2.order := by
  cases parts with
  | nil => exact absurd rfl h
  | cons q parts =>
      obtain ⟨hle, hall, hmem⟩ := foldl_min_order parts q.2.order
      refine ⟨fun p hp => ?_, ?_⟩
      · rcases List.mem_cons.mp hp with rfl | hp
        · exact hle
        · exact hall p hp
      · rcases hmem with heq | ⟨p, hp, heq⟩
        · exact ⟨q, List.mem_cons_self, heq⟩
        · exact ⟨p, List.mem_cons_of_mem _ hp, heq⟩

/-! ## Reading early -/

/-- Within an era a planned load reads the same at every position before its
    own. -/
theorem Pass.scalar_eq {c : VecContext} {ops : List BlockOp} {pass : Pass ops}
    (hquiet : pass.Quiet c) {i j : Nat} (hij : i ≤ j) (hera : eraAt ops i = eraAt ops j)
    {plan : FoldedAddr} {cls : RegClass} {symbol : String} {elem : Nat}
    (hplanned : Planned c ops j plan cls symbol) (helem : cls.elem = some elem) :
    pass.scalar i plan elem = pass.scalar j plan elem := by
  -- Backwards from the load, one position at a time.
  obtain ⟨d, rfl⟩ : ∃ d, j = i + d := ⟨j - i, by omega⟩
  induction d generalizing i with
  | zero => rfl
  | succ d ih =>
      have hlt : i < ops.length := by
        obtain ⟨result, address, hop, -⟩ := hplanned
        have := (List.getElem?_eq_some_iff.mp hop).1
        omega
      have hop := List.getElem?_eq_getElem hlt
      have hsucc := eraAt_mono ops (show i + 1 ≤ i + (d + 1) by omega)
      have hstep := eraAt_succ hop
      have hsame : eraAt ops (i + 1) = eraAt ops (i + (d + 1)) := by
        split at hstep <;> omega
      rw [show i + (d + 1) = i + 1 + d by omega] at hplanned hsame ⊢
      rw [← ih (by omega) hsame hplanned]
      cases hkeeps : ops[i].keepsMemory with
      | true =>
          show ByteMemory.load _ _ _ = ByteMemory.load _ _ _
          rw [pass.keeps i _ hop hkeeps]
      | false =>
          refine (hquiet i (i + 1 + d) _ plan cls symbol elem (by omega) hop hkeeps hplanned helem
            fun p op hp hpj hpop => ?_).symm
          -- Nothing up to the load ends the era.
          have hle := eraAt_mono ops (show i ≤ p by omega)
          have hle' := eraAt_mono ops (show p + 1 ≤ i + 1 + d by omega)
          have hp := eraAt_succ hpop
          cases hends : op.endsEra with
          | false => rfl
          | true =>
              rw [if_pos hends] at hp
              omega

/-! ## The groups of a block -/

theorem RegClass.elem_eq {cls : RegClass} {elem : Nat} (h : cls.elem = some elem) :
    elem = 4 ∨ elem = 8 := by
  cases cls <;> simp only [RegClass.elem, Option.some.injEq, reduceCtorEq] at h <;> omega

/-- Where a group comes from. -/
structure Formed (c : VecContext) (ops : List BlockOp) (bucket : Bucket) (elem : Nat) (start : Int)
    (lanes : Nat) : Prop where
  sound : bucket.Sound c ops
  elem_eq : bucket.key.cls.elem = some elem
  starts : Starts elem (dynamicAlign bucket.key.terms) (bucket.members.map Prod.fst) start lanes

theorem buckets_sound (c : VecContext) (ops : List BlockOp) :
    BucketsSound c ops (collect c ops 0 0 []) :=
  collect_sound ops 0 [] rfl ⟨fun _ h => absurd h List.not_mem_nil, List.nodup_nil⟩

theorem mem_bucketGroups {c : VecContext} {ops : List BlockOp} {bucket : Bucket}
    (hbucket : bucket.Sound c ops) {g : VecGroup} (h : g ∈ bucketGroups bucket) :
    ∃ elem start lanes, Formed c ops bucket elem start lanes ∧
      g = groupAt bucket elem start lanes := by
  unfold bucketGroups at h
  split at h
  · exact absurd h List.not_mem_nil
  · rename_i elem helem
    obtain ⟨p, hp, rfl⟩ := List.mem_map.mp h
    have hpos : 0 < elem := by
      have := RegClass.elem_eq helem
      omega
    obtain ⟨hall, -⟩ := groupStarts_sound (dynamicAlign bucket.key.terms) hpos
      (bucket.members.map Prod.fst) (fun _ h => h) []
    exact ⟨elem, p.1, p.2, ⟨hbucket, helem, hall p hp⟩, rfl⟩

theorem mem_planVectorLoads {c : VecContext} {ops : List BlockOp} {g : VecGroup}
    (h : g ∈ planVectorLoads c ops) :
    ∃ bucket elem start lanes, Formed c ops bucket elem start lanes ∧
      g = groupAt bucket elem start lanes := by
  obtain ⟨bucket, hbucket, h⟩ := List.mem_flatMap.mp h
  exact ⟨bucket, mem_bucketGroups ((buckets_sound c ops).each bucket hbucket) h⟩

section Formed

variable {c : VecContext} {ops : List BlockOp} {bucket : Bucket} {elem : Nat} {start : Int}
  {lanes : Nat}

theorem Formed.offsets (h : Formed c ops bucket elem start lanes) :
    (groupAt bucket elem start lanes).parts.map Prod.fst = laneOffsets elem start lanes :=
  groupAt_parts_offsets h.starts.present

theorem Formed.length_parts (h : Formed c ops bucket elem start lanes) :
    (groupAt bucket elem start lanes).parts.length = lanes := by
  have := congrArg List.length h.offsets
  rwa [List.length_map, laneOffsets, List.length_map, List.length_range] at this

/-- The bytes of a group are 8 or 16. -/
theorem Formed.bytes_eq (h : Formed c ops bucket elem start lanes) :
    ∃ n ≤ 4, lanes * elem = 2 ^ n := by
  rcases h.starts.count with rfl | ⟨rfl, rfl⟩
  · rcases RegClass.elem_eq h.elem_eq with rfl | rfl
    · exact ⟨3, by decide, rfl⟩
    · exact ⟨4, by decide, rfl⟩
  · exact ⟨4, by decide, rfl⟩

theorem Formed.address_eq (h : Formed c ops bucket elem start lanes) (env : Env) :
    (groupAt bucket elem start lanes).address env =
      BitVec.ofNat 64 (env.bits bucket.key.root) + termSum env bucket.key.terms +
        BitVec.ofInt 64 start := by
  have hhead : (laneOffsets elem start lanes).headD 0 = start := by
    obtain ⟨n, hn⟩ : ∃ n, lanes = n + 1 := ⟨lanes - 1, by have := h.starts.count; omega⟩
    subst hn
    rw [laneOffsets, List.range_succ_eq_map, List.map_cons, List.headD_cons]
    omega
  rw [VecGroup.address, h.offsets, hhead, FoldedAddr.value]
  exact congrArg (· + _) (BitVec.add_zero _)

/-- The vector address is aligned where the root is. -/
theorem Formed.aligned (h : Formed c ops bucket elem start lanes) {env : Env}
    (hroot : lanes * elem ∣ env.bits bucket.key.root) :
    lanes * elem ∣ ((groupAt bucket elem start lanes).address env).toNat := by
  obtain ⟨n, hn, hbytes⟩ := h.bytes_eq
  have halign := h.starts.align
  have hstart := h.starts.start_dvd
  rw [h.address_eq]
  rw [hbytes] at hroot halign hstart ⊢
  apply dvd_toNat_add hn
  · apply dvd_toNat_add hn
    · rw [BitVec.toNat_ofNat, Nat.dvd_mod_iff (two_pow_dvd_two_pow_64 hn)]
      exact hroot
    · exact dvd_termSum env hn _ (le_align_of_le_dynamicAlign halign)
  · rw [BitVec.toNat_ofInt]
    have hdvd : ((2 ^ n : Nat) : Int) ∣ start % ((2 ^ 64 : Nat) : Int) := by
      rw [Int.emod_def]
      refine Int.dvd_sub hstart (Int.dvd_trans ?_ (Int.dvd_mul_right _ _))
      exact Int.natCast_dvd_natCast.mpr (two_pow_dvd_two_pow_64 hn)
    have hnonneg : 0 ≤ start % ((2 ^ 64 : Nat) : Int) := Int.emod_nonneg _ (by decide)
    rw [← Int.natCast_dvd_natCast, Int.toNat_of_nonneg hnonneg]
    exact hdvd

/-- A member's own address is that of its lane. -/
theorem Formed.lane_address (h : Formed c ops bucket elem start lanes) {env : Env}
    (hroot : lanes * elem ∣ env.bits bucket.key.root) {lane : Nat} (hlane : lane < lanes)
    {plan : FoldedAddr} (hplanRoot : plan.root = bucket.key.root)
    (hterms : plan.terms = bucket.key.terms)
    (hoffset : plan.offset.toInt = start + (lane : Int) * elem) :
    (plan.value env).toNat =
      ((groupAt bucket elem start lanes).address env).toNat + lane * elem := by
  have haddr : plan.value env =
      (groupAt bucket elem start lanes).address env + BitVec.ofNat 64 (lane * elem) := by
    have hplan : plan.offset = BitVec.ofInt 64 start + BitVec.ofNat 64 (lane * elem) := by
      rw [← BitVec.ofInt_toInt (x := plan.offset), hoffset, BitVec.ofInt_add,
        ← Int.natCast_mul, BitVec.ofInt_natCast]
    rw [h.address_eq, FoldedAddr.value, hplanRoot, hterms, hplan]
    ring
  obtain ⟨n, hn, hbytes⟩ := h.bytes_eq
  have haligned := h.aligned hroot
  have hlt : lane * elem < lanes * elem := by
    apply Nat.mul_lt_mul_of_pos_right hlane
    have := RegClass.elem_eq h.elem_eq
    omega
  rw [hbytes] at haligned hlt
  -- An aligned access does not wrap around.
  obtain ⟨q, hq⟩ := haligned
  obtain ⟨r, hr⟩ := two_pow_dvd_two_pow_64 hn
  have haddrlt := ((groupAt bucket elem start lanes).address env).isLt
  rw [hq, hr] at haddrlt
  have hqr : q + 1 ≤ r := Nat.lt_of_mul_lt_mul_left haddrlt
  have hle := Nat.mul_le_mul_left (2 ^ n) hqr
  rw [← hr, Nat.mul_add, ← hq, Nat.mul_one] at hle
  rw [haddr, BitVec.toNat_add, BitVec.toNat_ofNat, Nat.mod_eq_of_lt (a := lane * elem) (by omega),
    Nat.mod_eq_of_lt (by omega)]

end Formed

/-! ## Declared alignments -/

theorem exists_pow_max {a b : Nat} (ha : ∃ n, a = 2 ^ n) (hb : ∃ n, b = 2 ^ n) :
    ∃ n, max a b = 2 ^ n := by
  rcases Nat.le_total a b with h | h
  · rw [Nat.max_eq_right h]
    exact hb
  · rw [Nat.max_eq_left h]
    exact ha

theorem foldl_max_pow (l : List Nat) (hl : ∀ x ∈ l, ∃ n, x = 2 ^ n) (a : Nat)
    (ha : ∃ n, a = 2 ^ n) :
    (∃ n, l.foldl max a = 2 ^ n) ∧ a ≤ l.foldl max a ∧ ∀ x ∈ l, x ≤ l.foldl max a := by
  induction l generalizing a with
  | nil => exact ⟨ha, Nat.le_refl a, fun _ h => absurd h List.not_mem_nil⟩
  | cons b l ih =>
      obtain ⟨hpow, hle, hall⟩ := ih (fun x hx => hl x (List.mem_cons_of_mem _ hx)) (max a b)
        (exists_pow_max ha (hl b List.mem_cons_self))
      refine ⟨hpow, Nat.le_trans (Nat.le_max_left a b) hle, fun x hx => ?_⟩
      rcases List.mem_cons.mp hx with rfl | hx
      · exact Nat.le_trans (Nat.le_max_right a x) hle
      · exact hall x hx

/-- The declared alignment is one the groups of the module can rely on. -/
theorem bytes_dvd_declared {groups : List VecGroup} (decl : SharedGlobal) {g : VecGroup}
    (hpow : ∀ g ∈ groups, ∃ n, g.bytes = 2 ^ n) (hg : g ∈ groups) :
    g.bytes ∣ decl.declared (alignRaise groups g.symbol) := by
  obtain ⟨hraise, -, hle⟩ := foldl_max_pow
    ((groups.filter fun g' => g'.symbol = g.symbol).map VecGroup.bytes)
    (fun x hx => by
      obtain ⟨g', hg', rfl⟩ := List.mem_map.mp hx
      exact hpow g' (List.mem_filter.mp hg').1) 1 ⟨0, rfl⟩
  have hmem : g.bytes ∈ (groups.filter fun g' => g'.symbol = g.symbol).map VecGroup.bytes :=
    List.mem_map_of_mem (List.mem_filter.mpr ⟨hg, decide_eq_true rfl⟩)
  obtain ⟨n, hn⟩ := exists_pow_max (exists_pow_max decl.align_pow decl.cudaAlign_pow) hraise
  obtain ⟨m, hm⟩ := hpow g hg
  have hbytes : g.bytes ≤ decl.declared (alignRaise groups g.symbol) :=
    Nat.le_trans (hle _ hmem) (Nat.le_max_right _ _)
  rw [SharedGlobal.declared, alignRaise, hn, hm] at hbytes ⊢
  exact Nat.pow_dvd_pow 2 ((Nat.pow_le_pow_iff_right (by decide)).mp hbytes)

theorem bytes_pow {c : VecContext} {ops : List BlockOp} {g : VecGroup}
    (h : g ∈ planVectorLoads c ops) : ∃ n, g.bytes = 2 ^ n := by
  obtain ⟨bucket, elem, start, lanes, hformed, rfl⟩ := mem_planVectorLoads h
  obtain ⟨n, -, hn⟩ := hformed.bytes_eq
  refine ⟨n, ?_⟩
  rw [VecGroup.bytes, hformed.length_parts]
  exact hn

/-! ## Exactness -/

section Exact

variable {c : VecContext} {ops : List BlockOp}

theorem Formed.exact {bucket : Bucket} {elem : Nat} {start : Int} {lanes : Nat}
    (h : Formed c ops bucket elem start lanes) {pass : Pass ops} (hquiet : pass.Quiet c)
    (hroot : lanes * elem ∣ pass.env.bits bucket.key.root) :
    (groupAt bucket elem start lanes).Exact c pass := by
  have hlength := h.length_parts
  have hpos : 0 < lanes := by
    have := h.starts.count
    omega
  have hne : (groupAt bucket elem start lanes).parts ≠ [] := by
    apply List.ne_nil_of_length_pos
    omega
  obtain ⟨hleast, leader, hleader, hleaderEq⟩ := leaderOf_sound hne
  refine ⟨?_, ⟨start, by rw [hlength]; exact h.offsets⟩, ?_, ?_⟩
  · have := h.starts.count
    omega
  · rw [VecGroup.bytes, hlength]
    exact h.aligned hroot
  · intro i off member hmember
    have hi : i < lanes := by
      have := (List.getElem?_eq_some_iff.mp hmember).1
      omega
    have hmem := mem_groupAt_parts (List.mem_of_getElem? hmember)
    have hsound := h.sound.members _ hmem.1
    have hleaderEra := (h.sound.members _ (mem_groupAt_parts hleader).1).era
    obtain ⟨plan, hplanned, hroot', hterms, hoffset⟩ := hsound.planned
    have hle := hleast _ (List.mem_of_getElem? hmember)
    refine ⟨plan, bucket.symbol, hplanned, hoffset, hle, ?_⟩
    have hoff : off = start + (i : Int) * elem := by
      have hmap := congrArg (fun l => l[i]?) h.offsets
      simp only [List.getElem?_map, hmember, Option.map_some, laneOffsets,
        List.getElem?_range hi, Option.some.injEq] at hmap
      exact hmap
    -- The lane's bytes, at the leader's position ...
    have hlane : (groupAt bucket elem start lanes).lane pass i =
        pass.scalar (leaderOf (groupAt bucket elem start lanes).parts) plan elem := by
      have hbound : i * elem + elem ≤ (groupAt bucket elem start lanes).bytes := by
        rw [VecGroup.bytes, hlength]
        show i * elem + elem ≤ lanes * elem
        rw [← Nat.succ_mul]
        exact Nat.mul_le_mul_right elem hi
      rw [VecGroup.lane]
      show ((ByteMemory.load _ _ _).drop (i * elem)).take elem = _
      rw [ByteMemory.take_drop_load _ hbound, Pass.scalar,
        h.lane_address hroot hi hroot' hterms (hoffset.trans hoff), Int.natCast_add]
      rfl
    -- ... are there at the load's own.
    rw [hlane]
    apply Pass.scalar_eq hquiet hle _ hplanned h.elem_eq
    rw [hleaderEq, hleaderEra, hsound.era]

theorem Planned.unique {i : Nat} {plan plan' : FoldedAddr} {cls cls' : RegClass}
    {symbol symbol' : String} (h : Planned c ops i plan cls symbol)
    (h' : Planned c ops i plan' cls' symbol') : plan = plan' ∧ cls = cls' := by
  obtain ⟨result, address, hop, hcandidate⟩ := h
  obtain ⟨result', address', hop', hcandidate'⟩ := h'
  cases hop.symm.trans hop'
  cases hcandidate.symm.trans hcandidate'
  exact ⟨rfl, rfl⟩

/-- The bucket of a load, and its offset there, are determined by its
    position. -/
theorem Bucket.Sound.unique {bucket bucket' : Bucket} (h : bucket.Sound c ops)
    (h' : bucket'.Sound c ops) {p p' : Int × Member} (hp : p ∈ bucket.members)
    (hp' : p' ∈ bucket'.members) (horder : p.2.order = p'.2.order) :
    bucket.key = bucket'.key ∧ p.1 = p'.1 := by
  obtain ⟨⟨plan, hplanned, hroot, hterms, hoffset⟩, hera⟩ := h.members p hp
  obtain ⟨⟨plan', hplanned', hroot', hterms', hoffset'⟩, hera'⟩ := h'.members p' hp'
  rw [← horder] at hplanned' hera'
  obtain ⟨rfl, hcls⟩ := hplanned.unique hplanned'
  refine ⟨?_, hoffset.symm.trans hoffset'⟩
  cases bucket with
  | mk key symbol members =>
      cases bucket' with
      | mk key' symbol' members' =>
          cases key
          cases key'
          simp only at hera hera' hroot hroot' hterms hterms' hcls
          rw [BucketKey.mk.injEq]
          exact ⟨hera.symm.trans hera', hroot.symm.trans hroot', hterms.symm.trans hterms', hcls⟩

theorem mem_orders {bucket : Bucket} (hbucket : bucket.Sound c ops) {i : Nat}
    (h : i ∈ (bucketGroups bucket).flatMap fun g => g.parts.map fun p => p.2.order) :
    ∃ p ∈ bucket.members, p.2.order = i := by
  obtain ⟨g, hg, h⟩ := List.mem_flatMap.mp h
  obtain ⟨elem, start, lanes, -, rfl⟩ := mem_bucketGroups hbucket hg
  obtain ⟨p, hp, hi⟩ := List.mem_map.mp h
  exact ⟨p, (mem_groupAt_parts hp).1, hi⟩

/-- Each load of one bucket is in at most one lane. -/
theorem nodup_orders_bucket {bucket : Bucket} (hbucket : bucket.Sound c ops) :
    ((bucketGroups bucket).flatMap fun g => g.parts.map fun p => p.2.order).Nodup := by
  unfold bucketGroups
  split
  · exact List.nodup_nil
  · rename_i elem helem
    have hpos : 0 < elem := by
      have := RegClass.elem_eq helem
      omega
    obtain ⟨-, hnodup, -⟩ := groupStarts_sound (dynamicAlign bucket.key.terms) hpos
      (bucket.members.map Prod.fst) (fun _ h => h) []
    simp only [List.flatMap_map, groupAt, List.map_filterMap]
    rw [← List.filterMap_flatMap]
    refine hnodup.filterMap fun off off' i hi hi' => ?_
    obtain ⟨p, hp, hpi⟩ := Option.map_eq_some_iff.mp hi
    obtain ⟨p', hp', hpi'⟩ := Option.map_eq_some_iff.mp hi'
    obtain ⟨m, hm, rfl⟩ := Option.map_eq_some_iff.mp hp
    obtain ⟨m', hm', rfl⟩ := Option.map_eq_some_iff.mp hp'
    exact (hbucket.unique hbucket (mem_of_lookup hm) (mem_of_lookup hm')
      (hpi.trans hpi'.symm)).2

/-- Lanes of different groups, and of one, are different loads. -/
theorem nodup_orders (c : VecContext) (ops : List BlockOp) :
    ((planVectorLoads c ops).flatMap fun g => g.parts.map fun p => p.2.order).Nodup := by
  have hsound := buckets_sound c ops
  rw [planVectorLoads, List.flatMap_assoc]
  refine List.nodup_flatMap.mpr
    ⟨fun bucket hbucket => nodup_orders_bucket (hsound.each bucket hbucket), ?_⟩
  have hkeys : (collect c ops 0 0 []).Pairwise fun b b' => b.key ≠ b'.key :=
    List.pairwise_map.mp hsound.keys
  refine hkeys.imp_of_mem fun {b b'} hb hb' hne i hi hi' => ?_
  obtain ⟨p, hp, hpi⟩ := mem_orders (hsound.each b hb) hi
  obtain ⟨p', hp', hpi'⟩ := mem_orders (hsound.each b' hb') hi'
  exact hne ((hsound.each b hb).unique (hsound.each b' hb') hp hp' (hpi.trans hpi'.symm)).1

/-- **Vectorised shared loads.** In every pass through every block of a module
    in which atomic operations, fences and inline assembly leave what later
    loads of their era read, each vector load is aligned, covers consecutive
    offsets once, and has in each lane what the scalar load would have read at
    its own position. -/
theorem vectorLoads_read_as_scalar (blocks : List (VecContext × List BlockOp))
    (decl : String → SharedGlobal) (hblock : (c, ops) ∈ blocks) (pass : Pass ops)
    (hroots : RootsAligned c pass.env decl (blocks.flatMap fun b => planVectorLoads b.1 b.2))
    (hquiet : pass.Quiet c) :
    (∀ g ∈ planVectorLoads c ops, g.Exact c pass) ∧
      ((planVectorLoads c ops).flatMap fun g => g.parts.map fun p => p.2.order).Nodup := by
  refine ⟨fun g hg => ?_, nodup_orders c ops⟩
  have hpow : ∀ g' ∈ blocks.flatMap fun b => planVectorLoads b.1 b.2, ∃ n, g'.bytes = 2 ^ n := by
    intro g' hg'
    obtain ⟨b, -, hg'⟩ := List.mem_flatMap.mp hg'
    exact bytes_pow hg'
  have hdvd := bytes_dvd_declared (decl g.symbol) hpow
    (List.mem_flatMap.mpr ⟨(c, ops), hblock, hg⟩)
  obtain ⟨bucket, elem, start, lanes, hformed, rfl⟩ := mem_planVectorLoads hg
  apply hformed.exact hquiet
  rw [VecGroup.bytes, hformed.length_parts] at hdvd
  exact Nat.dvd_trans hdvd (hroots _ _ hformed.sound.addressOf)

end Exact

/-! ## An atomic operation between two lanes -/

/-- A kernel that loads the first word of a shared tile, adds 1 to the second
    with an atomic operation, and loads the second. -/
def pairKernel : Kernel where
  blocks := [
    ⟨[], [
      .addressOf ⟨0, .pointer⟩ "TILE",
      .gep ⟨1, .pointer⟩ ⟨0, .pointer⟩ (.i 32) [.constant 0],
      .gep ⟨2, .pointer⟩ ⟨0, .pointer⟩ (.i 32) [.constant 1],
      .constant ⟨3, .i 32⟩ 1,
      .load ⟨4, .i 32⟩ ⟨1, .pointer⟩,
      .atomicRmw [⟨5, .i 32⟩] ⟨2, .pointer⟩ [⟨3, .i 32⟩],
      .load ⟨6, .i 32⟩ ⟨2, .pointer⟩,
      .other [] []]⟩]
  globals _ := some .shared
  paramsGlobal := true

def pairContext : VecContext :=
  pairKernel.vecContext ((inferSpaces pairKernel 8).getD fun _ => none)

/-- The block of the kernel, with the given operation between the loads. -/
def pairOps (between : BlockOp) : List BlockOp :=
  [.pure [⟨0, .pointer⟩] [], .pure [⟨1, .pointer⟩] [⟨0, .pointer⟩],
    .pure [⟨2, .pointer⟩] [⟨0, .pointer⟩], .pure [⟨3, .i 32⟩] [],
    .load ⟨4, .i 32⟩ ⟨1, .pointer⟩ false, between, .load ⟨6, .i 32⟩ ⟨2, .pointer⟩ false]

def pairAtomic : BlockOp := .atomicRmw [⟨5, .i 32⟩] [⟨2, .pointer⟩, ⟨3, .i 32⟩]

/-- The tile is at 4096. -/
def pairEnv : Env := fun v =>
  if v = ⟨0, .pointer⟩ then some ⟨4096, some (.global "TILE")⟩ else none

/-- A pass that finds zeros in the tile; the atomic operation adds 1 to the
    word at 4100. -/
def pairPass : Pass (pairOps pairAtomic) where
  env := pairEnv
  mem i := if i ≤ 5 then fun _ => 0 else ByteMemory.store (fun _ => 0) 4100 [1]
  keeps i op hop hkeeps := by
    by_cases hi : i = 5
    · subst hi
      cases hop
      cases hkeeps
    · by_cases hle : i ≤ 5
      · rw [if_pos hle, if_pos (by omega)]
      · rw [if_neg hle, if_neg (by omega)]

/-- A pass with an addition in registers between the loads. -/
def pairPurePass : Pass (pairOps (.pure [⟨5, .i 32⟩] [⟨3, .i 32⟩])) where
  env := pairEnv
  mem _ _ := 0
  keeps _ _ _ _ := rfl

def pairDecl : SharedGlobal where
  align := 4
  cudaAlign := 1
  align_pow := ⟨2, rfl⟩
  cudaAlign_pow := ⟨0, rfl⟩

/-- The two loads as a pair. -/
def pairGroup : VecGroup where
  plan := ⟨⟨0, .pointer⟩, [], 0⟩
  parts := [(0, ⟨4, ⟨4, .i 32⟩⟩), (4, ⟨6, ⟨6, .i 32⟩⟩)]
  cls := .b32
  elem := 4
  symbol := "TILE"
  leader := 4

theorem pair_rootsAligned {groups : List VecGroup}
    (h : pairDecl.declared (alignRaise groups "TILE") ∣ 4096) :
    RootsAligned pairContext pairEnv (fun _ => pairDecl) groups := by
  intro root symbol hroot
  have hroot : addressOfSymbol pairKernel root = some symbol := hroot
  unfold addressOfSymbol at hroot
  split at hroot
  · rename_i r name hdef
    obtain rfl := Option.some.inj hroot
    obtain ⟨hinst, hresult⟩ := mem_of_definingOp hdef
    obtain rfl := List.mem_singleton.mp hresult
    obtain ⟨rfl, rfl⟩ : root = ⟨0, .pointer⟩ ∧ name = "TILE" := by
      simpa [pairKernel, Kernel.insts] using hinst
    exact h
  · cases hroot

theorem vectorLoads_read_as_scalar_pair :
    pairGroup ∈ planVectorLoads pairContext (pairOps (.pure [⟨5, .i 32⟩] [⟨3, .i 32⟩])) ∧
      pairGroup.Exact pairContext pairPurePass := by
  have hgroup :
      pairGroup ∈ planVectorLoads pairContext (pairOps (.pure [⟨5, .i 32⟩] [⟨3, .i 32⟩])) := by
    decide
  refine ⟨hgroup, (vectorLoads_read_as_scalar
    [(pairContext, pairOps (.pure [⟨5, .i 32⟩] [⟨3, .i 32⟩]))] (fun _ => pairDecl)
    List.mem_cons_self pairPurePass (pair_rootsAligned ?_) ?_).1 _ hgroup⟩
  · have hdeclared : pairDecl.declared (alignRaise ([(pairContext,
        pairOps (.pure [⟨5, .i 32⟩] [⟨3, .i 32⟩]))].flatMap fun b => planVectorLoads b.1 b.2)
          "TILE") = 8 := by decide
    rw [hdeclared]
    decide
  · exact fun _ _ _ _ _ _ _ _ _ _ _ _ _ => rfl

/-- The second lane is loaded before the atomic operation writes it. -/
theorem vectorLoads_across_atomic :
    RootsAligned pairContext pairPass.env (fun _ => pairDecl)
      (planVectorLoads pairContext (pairOps pairAtomic)) ∧
    pairGroup ∈ planVectorLoads pairContext (pairOps pairAtomic) ∧
    pairGroup.lane pairPass 1 = [0, 0, 0, 0] ∧
    pairPass.scalar 6 ⟨⟨0, .pointer⟩, [], 4⟩ 4 = [1, 0, 0, 0] ∧
    ¬ pairGroup.Exact pairContext pairPass := by
  have hplans : planVectorLoads pairContext (pairOps pairAtomic) = [pairGroup] := by
    decide
  have hscalar : pairPass.scalar 6 ⟨⟨0, .pointer⟩, [], 4⟩ 4 = [1, 0, 0, 0] := by
    decide
  have hlane : pairGroup.lane pairPass 1 = [0, 0, 0, 0] := by decide
  rw [hplans]
  refine ⟨pair_rootsAligned ?_, List.mem_cons_self, hlane, hscalar, fun hexact => ?_⟩
  · have hdeclared : pairDecl.declared (alignRaise [pairGroup] "TILE") = 8 := by decide
    rw [hdeclared]
    decide
  · obtain ⟨plan, symbol, hplanned, -, -, hreads⟩ :=
      hexact.reads 1 4 ⟨6, ⟨6, .i 32⟩⟩ rfl
    have hplan : Planned pairContext (pairOps pairAtomic) 6 ⟨⟨0, .pointer⟩, [], 4⟩ .b32 "TILE" :=
      ⟨⟨6, .i 32⟩, ⟨2, .pointer⟩, rfl, by decide⟩
    obtain ⟨rfl, -⟩ := hplanned.unique hplan
    have hreads : pairGroup.lane pairPass 1 = pairPass.scalar 6 ⟨⟨0, .pointer⟩, [], 4⟩ 4 := hreads
    rw [hlane, hscalar] at hreads
    cases hreads

end Crabbit.Nvptx
