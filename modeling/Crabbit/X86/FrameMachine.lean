/-
  Crabbit.X86.FrameMachine

  Runs of x86-64 machine code as far as the frame is concerned, and a typing
  of code by the state of the frame: how many callee-saved registers lie on
  the stack and by how many bytes `rsp` is lowered below them.  The values
  that ordinary operations compute are left open, so a run here covers every
  run of the machine.
-/

import Crabbit.X86.FrameLower
import Crabbit.Lib.ByteMemory
import Mathlib.Logic.Relation

namespace Crabbit.X86

open Crabbit.Lib

/-! ## The machine -/

/-- Registers by hardware number (`rsp` apart) and memory. -/
structure State where
  regs : Nat → BitVec 64
  rsp : Int
  mem : ByteMemory

namespace State

def get (s : State) : Register → BitVec 64
  | .physical (.gpr64 n) => if n = 4 then BitVec.ofInt 64 s.rsp else s.regs n
  | _ => 0

def set (s : State) (reg : Register) (v : BitVec 64) : State :=
  match reg with
  | .physical (.gpr64 n) =>
    if n = 4 then { s with rsp := v.toNat } else { s with regs := Function.update s.regs n v }
  | _ => s

@[simp] theorem mem_set (s : State) (reg : Register) (v : BitVec 64) :
    (s.set reg v).mem = s.mem := by
  unfold set
  split
  · split <;> rfl
  · rfl

theorem rsp_set (s : State) {reg : Register} (v : BitVec 64) (h : reg ≠ RSP) :
    (s.set reg v).rsp = s.rsp := by
  unfold set
  split
  · split
    · exact absurd (by subst_vars; rfl) h
    · rfl
  · rfl

theorem regs_set_of_ne (s : State) {reg : Register} {n : Nat} (v : BitVec 64)
    (h : reg ≠ .gpr n) : (s.set reg v).regs n = s.regs n := by
  unfold set
  split
  · next m =>
    split
    · rfl
    · exact Function.update_of_ne (fun hn => h (by rw [hn]; rfl)) _ _
  · rfl

theorem regs_set_self (s : State) {n : Nat} (v : BitVec 64) (h : n ≠ 4) :
    (s.set (.gpr n) v).regs n = v := by
  simp only [set, if_neg h, Function.update_self]

end State

/-- What one operation does.  Calls keep `rsp` and the callee-saved
    registers, and neither they nor stores through pointers touch the bytes
    `own` of the frame's saved registers. -/
def Exec (own : Int → Prop) (op : FrameOp) (s s' : State) : Prop :=
  match op with
  | .push reg =>
    s' = { s with rsp := s.rsp - 8, mem := s.mem.storeWord (s.rsp - 8) (s.get reg) }
  | .pop reg => s' = ({ s with rsp := s.rsp + 8 } : State).set reg (s.mem.loadWord s.rsp)
  | .subSp n => s' = { s with rsp := s.rsp - n }
  | .addSp n => s' = { s with rsp := s.rsp + n }
  | .stackArg reg off => s' = s.set reg (s.mem.loadWord (s.rsp + 8 + off))
  | .load n reg off => s' = s.set reg (BitVec.ofNat 64 (ofLE (s.mem.load (s.rsp + off) n)))
  | .store n reg off =>
    s' = { s with mem := s.mem.store (s.rsp + off) (toLE n (s.get reg).toNat) }
  | .call =>
    s'.rsp = s.rsp ∧ (∀ r ∈ calleeSaved, s'.regs r = s.regs r) ∧ ∀ a, own a → s'.mem a = s.mem a
  | .pointerStore =>
    s'.rsp = s.rsp ∧ s'.regs = s.regs ∧ ∀ a, own a → s'.mem a = s.mem a
  | .compute rd =>
    (rd ≠ some RSP → s'.rsp = s.rsp) ∧
      (∀ r ∈ calleeSaved, rd ≠ some (.gpr r) → s'.regs r = s.regs r) ∧ s'.mem = s.mem
  | .jump _ | .branch _ | .ret | .trap => False

/-- A point of a run: the block, the operations of it still to execute, and
    the state. -/
structure Config where
  block : Nat
  rest : List Inst
  state : State

/-- One step of a function with these blocks.  A `ret` or `ud2` ends the run;
    a block without one at its end falls through to the next. -/
inductive Step (blocks : List (List Inst)) (own : Int → Prop) : Config → Config → Prop
  | exec {b : Nat} {inst : Inst} {rest : List Inst} {s s' : State} {op : FrameOp}
      (hop : inst.frameOp = some op) (h : Exec own op s s') :
      Step blocks own ⟨b, inst :: rest, s⟩ ⟨b, rest, s'⟩
  | jump {b t : Nat} {inst : Inst} {rest code : List Inst} {s : State}
      (hop : inst.frameOp = some (.jump t) ∨ inst.frameOp = some (.branch t))
      (hcode : blocks[t]? = some code) :
      Step blocks own ⟨b, inst :: rest, s⟩ ⟨t, code, s⟩
  | stay {b t : Nat} {inst : Inst} {rest : List Inst} {s : State}
      (hop : inst.frameOp = some (.branch t)) :
      Step blocks own ⟨b, inst :: rest, s⟩ ⟨b, rest, s⟩
  | fall {b : Nat} {code : List Inst} {s : State} (hcode : blocks[b + 1]? = some code) :
      Step blocks own ⟨b, [], s⟩ ⟨b + 1, code, s⟩

/-! ## Typing by the state of the frame -/

/-- `FrameTyped size op k d k' d'`: with the first `k` callee-saved registers
    on the stack and `rsp` lowered `d` bytes below them, the operation keeps
    to the frame of `size` bytes and leads to `k'` and `d'`. -/
def FrameTyped (size : Nat) (op : FrameOp) (k d k' d' : Nat) : Prop :=
  match op with
  | .push reg => d = 0 ∧ d' = 0 ∧ k' = k + 1 ∧ ∃ r, calleeSaved[k]? = some r ∧ reg = .gpr r
  | .pop reg => d = 0 ∧ d' = 0 ∧ k = k' + 1 ∧ ∃ r, calleeSaved[k']? = some r ∧ reg = .gpr r
  | .subSp n => k' = k ∧ d' = d + n
  | .addSp n => k' = k ∧ d = d' + n
  | .stackArg reg _ =>
    k = 0 ∧ d = 0 ∧ k' = 0 ∧ d' = 0 ∧ reg ≠ RSP ∧ ∀ r ∈ calleeSaved, reg ≠ .gpr r
  | .load n reg off => k = 5 ∧ d = size ∧ k' = 5 ∧ d' = d ∧ reg ≠ RSP ∧ off + n ≤ size
  | .store n _ off =>
    k = 5 ∧ k' = 5 ∧ d' = d ∧ size ≤ d ∧ (d = size → off + n ≤ size) ∧
      (size < d → off + n ≤ d - size)
  | .call => k = 5 ∧ k' = 5 ∧ d' = d ∧ d % 16 = 0
  | .pointerStore => k = 5 ∧ k' = 5 ∧ d' = d
  | .compute rd => k = 5 ∧ k' = 5 ∧ d' = d ∧ rd ≠ some RSP
  | .jump t | .branch t => k = 5 ∧ d = size ∧ k' = 5 ∧ d' = size ∧ t ≠ 0
  | .trap => k = 5 ∧ d = size ∧ k' = 5 ∧ d' = size
  | .ret => k = 0 ∧ d = 0 ∧ k' = 5 ∧ d' = size

/-- Code that starts at `k` and `d` and is ready to fall through at its end.
    Behind a `ret` the count starts again from the finished frame. -/
def CodeTyped (size : Nat) : Nat → Nat → List Inst → Prop
  | k, d, [] => k = 5 ∧ d = size
  | k, d, inst :: code =>
    ∃ op k' d', inst.frameOp = some op ∧ FrameTyped size op k d k' d' ∧ CodeTyped size k' d' code

/-- The entry block is typed from the state at the call, the others from the
    finished frame. -/
def BlocksTyped (size : Nat) (blocks : List (List Inst)) : Prop :=
  ∀ b code, blocks[b]? = some code →
    if b = 0 then CodeTyped size 0 0 code else CodeTyped size 5 size code

/-- The frame at `k` and `d` in a run from `s₀`: the registers on the stack
    have their values of the entry there, the others still hold them. -/
structure FrameInv (s₀ : State) (k d : Nat) (s : State) : Prop where
  rsp : s.rsp = s₀.rsp - 8 * k - d
  saved : ∀ j < k, ∀ r, calleeSaved[j]? = some r →
    s.mem.loadWord (s₀.rsp - 8 * (j + 1 : Nat)) = s₀.regs r
  kept : ∀ j, k ≤ j → ∀ r, calleeSaved[j]? = some r → s.regs r = s₀.regs r
  le : k ≤ 5

/-- The bytes of the saved registers. -/
def savedBytes (s₀ : State) (a : Int) : Prop := s₀.rsp - 40 ≤ a ∧ a < s₀.rsp

/-! ## One operation keeps the invariant -/

theorem lt_of_calleeSaved {j r : Nat} (h : calleeSaved[j]? = some r) : j < 5 :=
  (List.getElem?_eq_some_iff.mp h).1

theorem calleeSaved_inj {i j r : Nat} (hi : calleeSaved[i]? = some r)
    (hj : calleeSaved[j]? = some r) : i = j :=
  (List.getElem?_inj (lt_of_calleeSaved hi) (by decide)).mp (hi.trans hj.symm)

theorem ne_rsp_of_calleeSaved {j r : Nat} (h : calleeSaved[j]? = some r) : r ≠ 4 := by
  have hmem := List.mem_of_getElem? h
  rintro rfl
  exact absurd hmem (by decide)

namespace FrameInv

variable {s₀ s s' : State} {k d d' : Nat}

/-- An operation that moves `rsp` but neither the saved registers nor the
    others keeps the invariant. -/
theorem of_agree (h : FrameInv s₀ k d s) (hrsp : s'.rsp = s₀.rsp - 8 * k - d')
    (hmem : ∀ a, savedBytes s₀ a → s₀.rsp - 8 * k ≤ a → s'.mem a = s.mem a)
    (hregs : ∀ j, k ≤ j → ∀ r, calleeSaved[j]? = some r → s'.regs r = s.regs r) :
    FrameInv s₀ k d' s' where
  rsp := hrsp
  saved := by
    intro j hj r hr
    have hk := h.le
    rw [← h.saved j hj r hr]
    exact ByteMemory.loadWord_congr fun a hlo hhi =>
      hmem a ⟨by omega, by omega⟩ (by omega)
  kept := by
    intro j hj r hr
    rw [hregs j hj r hr, h.kept j hj r hr]
  le := h.le

/-- With all registers on the stack nothing is asked of the others. -/
theorem of_mem (h : FrameInv s₀ 5 d s) (hrsp : s'.rsp = s.rsp)
    (hmem : ∀ a, savedBytes s₀ a → s'.mem a = s.mem a) : FrameInv s₀ 5 d s' := by
  refine h.of_agree (by rw [hrsp, h.rsp]) (fun a ha _ => hmem a ha) ?_
  intro j hj r hr
  exact absurd (lt_of_calleeSaved hr) (by omega)

theorem push (h : FrameInv s₀ k 0 s) {r : Nat} (hr : calleeSaved[k]? = some r) :
    FrameInv s₀ (k + 1) 0
      { s with rsp := s.rsp - 8, mem := s.mem.storeWord (s.rsp - 8) (s.get (.gpr r)) } where
  rsp := by
    have := h.rsp
    simp only
    omega
  saved := by
    have hrsp := h.rsp
    intro j hj r' hr'
    have hle := lt_of_calleeSaved hr
    by_cases hjk : j = k
    · -- the register just pushed still held its value of the entry
      subst hjk
      obtain rfl := Option.some.inj (hr.symm.trans hr')
      have haddr : s₀.rsp - 8 * (j + 1 : Nat) = s.rsp - 8 := by omega
      simp only [haddr, ByteMemory.loadWord_storeWord, State.get,
        if_neg (ne_rsp_of_calleeSaved hr)]
      exact h.kept j (Nat.le_refl j) r hr
    · rw [← h.saved j (by omega) r' hr']
      exact ByteMemory.loadWord_congr fun a hlo hhi =>
        ByteMemory.storeWord_of_notMem _ _ (by omega)
  kept := fun j hj r' hr' => h.kept j (by omega) r' hr'
  le := by
    have := lt_of_calleeSaved hr
    omega

theorem pop (h : FrameInv s₀ (k + 1) 0 s) {r : Nat} (hr : calleeSaved[k]? = some r) :
    FrameInv s₀ k 0
      (({ s with rsp := s.rsp + 8 } : State).set (.gpr r) (s.mem.loadWord s.rsp)) := by
  have hrsp := h.rsp
  have hne := ne_rsp_of_calleeSaved hr
  have hword : s.mem.loadWord s.rsp = s₀.regs r := by
    rw [← h.saved k (by omega) r hr]
    congr 1
    omega
  refine ⟨?_, ?_, ?_, by have := h.le; omega⟩
  · rw [State.rsp_set _ _ (by simpa using hne)]
    simp only
    omega
  · intro j hj r' hr'
    rw [State.mem_set]
    exact h.saved j (by omega) r' hr'
  · intro j hj r' hr'
    by_cases hjk : j = k
    · subst hjk
      obtain rfl := Option.some.inj (hr.symm.trans hr')
      rw [State.regs_set_self _ _ hne, hword]
    · have hrr : r ≠ r' := by
        rintro rfl
        exact hjk (calleeSaved_inj hr' hr)
      rw [State.regs_set_of_ne _ _ (by simpa using hrr)]
      exact h.kept j (by omega) r' hr'

end FrameInv

/-- The step lemma: a typed operation leads from the frame at `k` and `d` to
    the frame at `k'` and `d'`. -/
theorem FrameTyped.exec_inv {s₀ s s' : State} {size k d k' d' : Nat} {op : FrameOp}
    (ht : FrameTyped size op k d k' d') (he : Exec (savedBytes s₀) op s s')
    (h : FrameInv s₀ k d s) : FrameInv s₀ k' d' s' := by
  have hrsp := h.rsp
  cases op with
  | push reg =>
    obtain ⟨rfl, rfl, rfl, r, hr, rfl⟩ := ht
    subst he
    exact h.push hr
  | pop reg =>
    obtain ⟨rfl, rfl, rfl, r, hr, rfl⟩ := ht
    subst he
    exact h.pop hr
  | subSp n =>
    obtain ⟨rfl, rfl⟩ := ht
    subst he
    refine h.of_agree ?_ (fun _ _ _ => rfl) (fun _ _ _ _ => rfl)
    simp only
    omega
  | addSp n =>
    obtain ⟨rfl, rfl⟩ := ht
    subst he
    refine h.of_agree ?_ (fun _ _ _ => rfl) (fun _ _ _ _ => rfl)
    simp only
    omega
  | stackArg reg off =>
    obtain ⟨rfl, rfl, rfl, rfl, hne, hsaved⟩ := ht
    subst he
    refine h.of_agree ?_ (fun _ _ _ => by rw [State.mem_set]) (fun j _ r hr => ?_)
    · rw [State.rsp_set _ _ hne, hrsp]
    · exact State.regs_set_of_ne _ _ (hsaved r (List.mem_of_getElem? hr))
  | load n reg off =>
    obtain ⟨rfl, rfl, rfl, rfl, hne, -⟩ := ht
    subst he
    exact h.of_mem (State.rsp_set _ _ hne) (fun _ _ => by rw [State.mem_set])
  | store n reg off =>
    obtain ⟨rfl, rfl, rfl, hle, hlocal, hout⟩ := ht
    subst he
    refine h.of_mem rfl fun a ha => ByteMemory.store_of_notMem _ _ (.inr ?_)
    -- the bytes written lie below the saved registers
    have hlo : s₀.rsp - 40 ≤ a := ha.1
    rw [length_toLE]
    by_cases hd : d' = size
    · have := hlocal hd
      omega
    · have := hout (by omega)
      omega
  | call =>
    obtain ⟨rfl, rfl, rfl, -⟩ := ht
    exact h.of_mem he.1 he.2.2
  | pointerStore =>
    obtain ⟨rfl, rfl, rfl⟩ := ht
    exact h.of_mem he.1 he.2.2
  | compute rd =>
    obtain ⟨rfl, rfl, rfl, hne⟩ := ht
    exact h.of_mem (he.1 hne) (fun _ _ => by rw [he.2.2])
  | jump t => exact he.elim
  | branch t => exact he.elim
  | ret => exact he.elim
  | trap => exact he.elim

/-! ## Whole runs -/

/-- What holds at every point of a run from `s₀`. -/
def ConfigTyped (size : Nat) (s₀ : State) (c : Config) : Prop :=
  ∃ k d, CodeTyped size k d c.rest ∧ FrameInv s₀ k d c.state

/-- Control enters a block other than the entry block with the frame
    finished. -/
theorem BlocksTyped.enter {size t : Nat} {blocks : List (List Inst)} {code : List Inst}
    {s₀ s : State} (hblocks : BlocksTyped size blocks) (hcode : blocks[t]? = some code)
    (ht : t ≠ 0) (h : FrameInv s₀ 5 size s) : ConfigTyped size s₀ ⟨t, code, s⟩ := by
  have htyped := hblocks t code hcode
  rw [if_neg ht] at htyped
  exact ⟨5, size, htyped, h⟩

theorem ConfigTyped.step {size : Nat} {blocks : List (List Inst)} {s₀ : State} {c c' : Config}
    (hblocks : BlocksTyped size blocks) (hstep : Step blocks (savedBytes s₀) c c')
    (h : ConfigTyped size s₀ c) : ConfigTyped size s₀ c' := by
  obtain ⟨k, d, hcode, hinv⟩ := h
  cases hstep with
  | exec hop he =>
    obtain ⟨op, k', d', hop', ht, hrest⟩ := hcode
    obtain rfl := Option.some.inj (hop.symm.trans hop')
    exact ⟨k', d', hrest, ht.exec_inv he hinv⟩
  | jump hop htarget =>
    obtain ⟨op, k', d', hop', ht, -⟩ := hcode
    rcases hop with hop | hop
    · obtain rfl := Option.some.inj (hop.symm.trans hop')
      obtain ⟨rfl, rfl, -, -, hne⟩ := ht
      exact hblocks.enter htarget hne hinv
    · obtain rfl := Option.some.inj (hop.symm.trans hop')
      obtain ⟨rfl, rfl, -, -, hne⟩ := ht
      exact hblocks.enter htarget hne hinv
  | stay hop =>
    obtain ⟨op, k', d', hop', ht, hrest⟩ := hcode
    obtain rfl := Option.some.inj (hop.symm.trans hop')
    obtain ⟨rfl, rfl, rfl, rfl, -⟩ := ht
    exact ⟨_, _, hrest, hinv⟩
  | fall htarget =>
    obtain ⟨rfl, rfl⟩ := hcode
    exact hblocks.enter htarget (Nat.succ_ne_zero _) hinv

theorem ConfigTyped.run {size : Nat} {blocks : List (List Inst)} {s₀ : State} {c c' : Config}
    (hblocks : BlocksTyped size blocks)
    (hrun : Relation.ReflTransGen (Step blocks (savedBytes s₀)) c c')
    (h : ConfigTyped size s₀ c) : ConfigTyped size s₀ c' := by
  induction hrun with
  | refl => exact h
  | tail _ hstep ih => exact ih.step hblocks hstep

end Crabbit.X86
