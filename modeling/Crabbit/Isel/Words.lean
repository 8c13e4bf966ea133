/-
  Crabbit.Isel.Words

  Selecting straight-line code on 64-bit words: what both CPU back ends have in
  common, and how to reason about the code that is emitted.

  A `Target` says how a back end writes the instructions; a `Machine` says what
  they do.  `Known` describes the machine after the code emitted so far: which
  registers are known to hold which words, which comparison the flags come
  from, and that nothing but fresh registers has changed.  A register that is
  allocated but not written yet is reserved.  `Yields` follows a selection from
  one description to the next, and the instances of `Knows` look a register up.
-/

import Crabbit.Llvm.Scalar
import Mathlib.Logic.Function.Basic

namespace Crabbit.Isel

open Crabbit.Llvm (ICmpPredicate Ty evalICmp)

/-! ## Words -/

/-- The three-address operations on words; a target may lack some. -/
inductive WordOp where
  | add | sub | mul | umulh | and | or | xor | shl | lsr | asr
  deriving DecidableEq

/-- Amounts of shifts are taken modulo 64. -/
def WordOp.eval (a b : BitVec 64) : WordOp → BitVec 64
  | .add => a + b
  | .sub => a - b
  | .mul => a * b
  | .umulh => BitVec.ofNat 64 (a.toNat * b.toNat / 2 ^ 64)
  | .and => a &&& b
  | .or => a ||| b
  | .xor => a ^^^ b
  | .shl => a <<< (b.toNat % 64)
  | .lsr => a >>> (b.toNat % 64)
  | .asr => a.sshiftRight (b.toNat % 64)

/-- A comparison of words. -/
def compares (predicate : ICmpPredicate) (a b : BitVec 64) : Bool :=
  evalICmp predicate 64 a.toNat b.toNat

theorem toSigned_toNat {n : Nat} (x : BitVec n) : Lib.toSigned n x.toNat = x.toInt :=
  (BitVec.toInt_eq_toNat_bmod x).symm

/-- The comparison of bit vectors that a predicate names. -/
def bitVecCompare (a b : BitVec 64) : ICmpPredicate → Bool
  | .eq => a == b
  | .ne => a != b
  | .slt => a.slt b
  | .sle => a.sle b
  | .sgt => b.slt a
  | .sge => b.sle a
  | .ult => a.ult b
  | .ule => a.ule b
  | .ugt => b.ult a
  | .uge => b.ule a

theorem compares_eq_bitVecCompare (predicate : ICmpPredicate) (a b : BitVec 64) :
    compares predicate a b = bitVecCompare a b predicate := by
  cases predicate <;>
    simp [compares, evalICmp, bitVecCompare, toSigned_toNat, BitVec.toNat_inj, BitVec.slt,
      BitVec.sle, BitVec.ult, BitVec.ule, beq_eq_decide, bne]

/-- A truth value as a word. -/
def bit (b : Bool) : BitVec 64 := if b then 1 else 0

/-! ## Targets -/

/-- `FpKind`: the width of a floating-point scalar. -/
inductive FpKind where
  | f32 | f64
  deriving DecidableEq

def FpKind.bits : FpKind → Nat
  | .f32 => 32
  | .f64 => 64

/-- What a floating-point register keeps of a word. -/
def FpKind.keep (kind : FpKind) (w : BitVec 64) : BitVec 64 := (w.setWidth kind.bits).setWidth 64

/-- The registers of a target that hold floating-point scalars and vectors, and
    the instructions that reach them. -/
structure FpFile (Register Inst : Type) where
  /-- `fp_kind`. -/
  kind : Ty → Option FpKind
  /-- Whether `vec_shape` finds a shape. -/
  isVector : Ty → Bool
  /-- The kind of a floating-point register. -/
  kindOf : Register → Option FpKind
  isSimd : Register → Bool
  /-- `Register::virtual_fpr64` and `Register::virtual_fpr32`. -/
  virtualFpr : FpKind → Nat → Register
  /-- `Register::virtual_simd128`. -/
  virtualSimd : Nat → Register
  /-- The moves of bits between the files: destination first. -/
  toGpr : FpKind → Register → Register → Inst
  toFpr : FpKind → Register → Register → Inst
  /-- The move of an immediate, where its bits have the short form. -/
  fmovImm : FpKind → Nat → Option (Register → Inst)
  /-- The load from the address in a register. -/
  load : FpKind → Register → Register → Inst

/-- The instructions a selection is made of. -/
structure Target where
  Register : Type
  [decEq : DecidableEq Register]
  Inst : Type
  /-- `Register::virtual_gpr`. -/
  virtualGpr : Nat → Register
  binary : WordOp → Register → Register → Register → Inst
  cmp : Register → Register → Inst
  /-- `cset` of the condition code of a predicate. -/
  cset : Register → ICmpPredicate → Inst
  /-- `materialize_u64_immediate`. -/
  materializeU64Immediate : Register → Nat → List Inst
  addSpOffset : Register → Nat → Inst
  adrLiteral : Register → String → List UInt8 → Inst
  /-- The back end may not support floating point. -/
  fp : Option (FpFile Register Inst)

instance (T : Target) : DecidableEq T.Register := T.decEq

/-- A virtual register with this number. -/
def IsVirtual (T : Target) (i : Nat) (r : T.Register) : Prop :=
  r = T.virtualGpr i ∨ ∃ F ∈ T.fp, r = F.virtualSimd i ∨ ∃ k, r = F.virtualFpr k i

/-- Straight-line code. -/
def runInsts {I S : Type} (step : I → S → Option S) : List I → S → Option S
  | [], s => some s
  | inst :: code, s => (step inst s).bind (runInsts step code)

theorem runInsts_append {I S : Type} (step : I → S → Option S) (code code' : List I) (s : S) :
    runInsts step (code ++ code') s = (runInsts step code s).bind (runInsts step code') := by
  induction code generalizing s with
  | nil => rfl
  | cons inst code ih =>
    rw [List.cons_append, runInsts, runInsts]
    cases step inst s with
    | none => rfl
    | some s' => exact ih s'

/-- Running the code leaves a word in `d` and nothing else in the registers. -/
def Writes {I S R : Type} [DecidableEq R] (step : I → S → Option S) (read : S → R → BitVec 128)
    (code : List I) (d : R) : Prop :=
  ∀ s, ∃ s' v, runInsts step code s = some s' ∧
    read s' = Function.update (read s) d ((v : BitVec 64).setWidth 128)

/-- The same of a word that the state says. -/
def WritesWord {I S R : Type} [DecidableEq R] (step : I → S → Option S) (read : S → R → BitVec 128)
    (code : List I) (d : R) (v : S → BitVec 64) : Prop :=
  ∀ s, ∃ s', runInsts step code s = some s' ∧
    read s' = Function.update (read s) d ((v s).setWidth 128)

/-- What the instructions of the floating-point file do to the registers. -/
structure FpLaws {R I S : Type} [DecidableEq R] (F : FpFile R I) (virtualGpr : Nat → R)
    (step : I → S → Option S) (read : S → R → BitVec 128) : Prop where
  toGpr : ∀ k (d : Nat) r, WritesWord step read [F.toGpr k (virtualGpr d) r] (virtualGpr d)
    fun s => (read s r).setWidth 64
  toFpr : ∀ k (d : Nat) r, WritesWord step read [F.toFpr k (F.virtualFpr k d) r]
    (F.virtualFpr k d) fun s => k.keep ((read s r).setWidth 64)
  fmovImm : ∀ {k bits inst}, F.fmovImm k bits = some inst → ∀ d : Nat,
    Writes step read [inst (F.virtualFpr k d)] (F.virtualFpr k d)
  load : ∀ k (d : Nat) r, Writes step read [F.load k (F.virtualFpr k d) r] (F.virtualFpr k d)

/-- What the instructions do.  Registers hold up to 128 bits; those of words hold
    64. -/
structure Machine (T : Target) where
  State : Type
  step : T.Inst → State → Option State
  read : State → T.Register → BitVec 128
  /-- The outcome of a predicate on the operands of the last comparison, by the
      flags. -/
  condition : State → ICmpPredicate → Option Bool
  /-- The operations the target has. -/
  has : WordOp → Prop
  /-- One counter numbers the virtual registers of all files. -/
  virtual_inj : ∀ {i j r}, IsVirtual T i r → IsVirtual T j r → i = j
  step_binary : ∀ {op}, has op → ∀ (s) (d : Nat) (a b),
    ∃ s', step (T.binary op (T.virtualGpr d) a b) s = some s' ∧
      read s' = Function.update (read s) (T.virtualGpr d)
        ((op.eval ((read s a).setWidth 64) ((read s b).setWidth 64)).setWidth 128)
  step_cmp : ∀ s a b, ∃ s', step (T.cmp a b) s = some s' ∧ read s' = read s ∧
    ∀ p, condition s' p = some (compares p ((read s a).setWidth 64) ((read s b).setWidth 64))
  step_cset : ∀ {s p holds}, condition s p = some holds → ∀ d : Nat,
    ∃ s', step (T.cset (T.virtualGpr d) p) s = some s' ∧
      read s' = Function.update (read s) (T.virtualGpr d) ((bit holds).setWidth 128) ∧
      condition s' = condition s
  run_immediate : ∀ (s) (d v : Nat),
    ∃ s', runInsts step (T.materializeU64Immediate (T.virtualGpr d) v) s = some s' ∧
      read s' = Function.update (read s) (T.virtualGpr d) ((BitVec.ofNat 64 v).setWidth 128)
  addSpOffset : ∀ (d : Nat) offset, Writes step read [T.addSpOffset (T.virtualGpr d) offset]
    (T.virtualGpr d)
  adrLiteral : ∀ (d : Nat) label bytes,
    Writes step read [T.adrLiteral (T.virtualGpr d) label bytes] (T.virtualGpr d)
  fpLaws : ∀ F ∈ T.fp, FpLaws F T.virtualGpr step read

namespace Machine

variable {T : Target} (M : Machine T)

/-- The word a register holds. -/
def word (s : M.State) (r : T.Register) : BitVec 64 := (M.read s r).setWidth 64

def run : List T.Inst → M.State → Option M.State := runInsts M.step

theorem run_single {inst : T.Inst} {s s' : M.State} (h : M.step inst s = some s') :
    M.run [inst] s = some s' := by
  rw [run, runInsts, h]
  rfl

theorem word_eq {s : M.State} {r : T.Register} {v : BitVec 64} (h : M.word s r = v) :
    (M.read s r).setWidth 64 = v := h

theorem word_update {s s' : M.State} {d : T.Register} {v : BitVec 64}
    (h : M.read s' = Function.update (M.read s) d (v.setWidth 128)) :
    M.word s' = Function.update (M.word s) d v := by
  funext r
  rw [word, h]
  by_cases hr : r = d
  · subst hr
    rw [Function.update_self, Function.update_self]
    exact BitVec.setWidth_setWidth_of_le v (by decide)
  · rw [Function.update_of_ne hr, Function.update_of_ne hr, word]

end Machine

/-! ## Selecting -/

/-- The counter of virtual registers and the code emitted so far. -/
structure Selection (T : Target) where
  next : Nat
  code : List T.Inst

/-- A selection; it may fail with a message. -/
abbrev Select (T : Target) := StateT (Selection T) (Except String)

variable {T : Target}

/-- `fresh_vreg`. -/
def freshVreg : Select T T.Register := fun sel =>
  .ok (T.virtualGpr sel.next, ⟨sel.next + 1, sel.code⟩)

/-- `insert_at_back`. -/
def emitAll (code : List T.Inst) : Select T Unit := fun sel =>
  .ok ((), ⟨sel.next, sel.code ++ code⟩)

def emit (inst : T.Inst) : Select T Unit := emitAll [inst]

/-- A fresh register for the result of an operation. -/
def emitBinary (op : WordOp) (lhs rhs : T.Register) : Select T T.Register := do
  let dst ← freshVreg
  emit (T.binary op dst lhs rhs)
  pure dst

/-- A fresh register for a constant. -/
def emitConstant (value : Nat) : Select T T.Register := do
  let dst ← freshVreg
  emitAll (T.materializeU64Immediate dst value)
  pure dst

/-! ## What is known of the registers -/

/-- A register with the word it holds. -/
structure Fact (T : Target) where
  reg : T.Register
  value : BitVec 64

/-- Where a selection starts: the code before it, the first register that is
    fresh, and the machine once that code has run. -/
structure Start (M : Machine T) where
  code : List T.Inst
  next : Nat
  state : M.State

/-- The registers that are fresh from `next` on. -/
def FreshFrom (T : Target) (next : Nat) (r : T.Register) : Prop := ∃ i, next ≤ i ∧ IsVirtual T i r

/-- An allocated register, and its kind where it holds floating point. -/
structure Slot (T : Target) where
  reg : T.Register
  kind : Option FpKind

def Slot.Virtual (slot : Slot T) : Prop :=
  match slot.kind with
  | none => ∃ i, slot.reg = T.virtualGpr i
  | some k => ∃ F ∈ T.fp, ∃ i, slot.reg = F.virtualFpr k i

/-- The emitted code runs to `s'`, where the facts hold. -/
structure Reaches (M : Machine T) (start : Start M) (facts : List (Fact T))
    (compared : Option (BitVec 64 × BitVec 64)) (code : List T.Inst) (s' : M.State) : Prop where
  runs : M.run code start.state = some s'
  unchanged : ∀ r, ¬FreshFrom T start.next r → M.read s' r = M.read start.state r
  holds : ∀ f ∈ facts, M.word s' f.reg = f.value
  flags : ∀ a b, compared = some (a, b) → ∀ p, M.condition s' p = some (compares p a b)

/-- The selection so far: reserved registers are fresh for all facts. -/
structure Known (M : Machine T) (start : Start M) (reserved : List (Slot T))
    (facts : List (Fact T)) (compared : Option (BitVec 64 × BitVec 64)) (sel : Selection T) :
    Prop where
  next_le : start.next ≤ sel.next
  reaches : ∃ code s', sel.code = start.code ++ code ∧ Reaches M start facts compared code s'
  allocated : ∀ f ∈ facts, ¬FreshFrom T sel.next f.reg
  reserved_virtual : ∀ d ∈ reserved, d.Virtual
  reserved_fresh : ∀ d ∈ reserved, FreshFrom T start.next d.reg ∧ ¬FreshFrom T sel.next d.reg
  reserved_ne : ∀ d ∈ reserved, ∀ f ∈ facts, f.reg ≠ d.reg
  nodup : (reserved.map Slot.reg).Nodup

/-- From where `P` holds, the selection succeeds with a result such that `Q`. -/
def Yields {α : Type} (P : Selection T → Prop) (m : Select T α) (Q : α → Selection T → Prop) : Prop :=
  ∀ sel, P sel → ∃ a sel', m sel = .ok (a, sel') ∧ Q a sel'

theorem Yields.bind {α β : Type} {P : Selection T → Prop} {m : Select T α}
    {Q : α → Selection T → Prop} {k : α → Select T β} {R : β → Selection T → Prop}
    (hm : Yields P m Q) (hk : ∀ a, Yields (Q a) (k a) R) : Yields P (m >>= k) R := by
  intro sel h
  obtain ⟨a, sel', hrun, hq⟩ := hm sel h
  obtain ⟨b, sel'', hrun', hr⟩ := hk a sel' hq
  refine ⟨b, sel'', ?_, hr⟩
  show (m sel >>= fun p => k p.1 p.2) = _
  rw [hrun]
  exact hrun'

theorem Yields.pure {α : Type} {P : Selection T → Prop} {a : α} {Q : α → Selection T → Prop}
    (h : ∀ sel, P sel → Q a sel) : Yields P (Pure.pure a) Q :=
  fun sel hp => ⟨a, sel, rfl, h sel hp⟩

theorem Yields.weaken {α : Type} {P : Selection T → Prop} {m : Select T α}
    {Q Q' : α → Selection T → Prop} (hm : Yields P m Q) (h : ∀ a sel, Q a sel → Q' a sel) :
    Yields P m Q' := by
  intro sel hp
  obtain ⟨a, sel', hrun, hq⟩ := hm sel hp
  exact ⟨a, sel', hrun, h a sel' hq⟩

/-- `facts` says that the register `r` holds the word `v`. -/
class Knows (facts : List (Fact T)) (r : T.Register) (v : outParam (BitVec 64)) : Prop where
  mem : ⟨r, v⟩ ∈ facts

instance (priority := high) Knows.head (facts : List (Fact T)) (r : T.Register) (v : BitVec 64) :
    Knows (⟨r, v⟩ :: facts) r v := ⟨List.mem_cons_self⟩

instance Knows.tail (f : Fact T) (facts : List (Fact T)) (r : T.Register) (v : BitVec 64)
    [h : Knows facts r v] : Knows (f :: facts) r v := ⟨List.mem_cons_of_mem _ h.mem⟩

/-! ## Rules -/

section Rules

variable {M : Machine T} {start : Start M} {reserved : List (Slot T)} {facts : List (Fact T)}
  {compared : Option (BitVec 64 × BitVec 64)}

theorem FreshFrom.mono {i j : Nat} (h : i ≤ j) {r : T.Register} (hr : FreshFrom T j r) :
    FreshFrom T i r := by
  obtain ⟨k, hk, hv⟩ := hr
  exact ⟨k, Nat.le_trans h hk, hv⟩

/-- Allocating the next virtual register of a file. -/
theorem Known.reserve {slot : Slot T} {sel : Selection T} (hslot : slot.Virtual)
    (hnext : IsVirtual T sel.next slot.reg) (h : Known M start reserved facts compared sel) :
    Known M start (slot :: reserved) facts compared ⟨sel.next + 1, sel.code⟩ := by
  have hself : FreshFrom T sel.next slot.reg := ⟨_, Nat.le_refl _, hnext⟩
  have hmono : ∀ {r : T.Register}, FreshFrom T (sel.next + 1) r → FreshFrom T sel.next r :=
    FreshFrom.mono (Nat.le_succ _)
  refine ⟨Nat.le_succ_of_le h.next_le, h.reaches, fun f hf hfresh =>
    h.allocated f hf (hmono hfresh), List.forall_mem_cons.mpr ⟨hslot, h.reserved_virtual⟩,
    fun d hd => ?_, fun d hd f hf heq => ?_, ?_⟩
  · rcases List.mem_cons.mp hd with rfl | hd
    · refine ⟨hself.mono h.next_le, ?_⟩
      rintro ⟨k, hk, hv⟩
      exact absurd (M.virtual_inj hnext hv) (Nat.ne_of_lt hk)
    · exact ⟨(h.reserved_fresh d hd).1, fun hfresh => (h.reserved_fresh d hd).2 (hmono hfresh)⟩
  · rcases List.mem_cons.mp hd with rfl | hd
    · exact h.allocated f hf (heq ▸ hself)
    · exact h.reserved_ne d hd f hf heq
  · refine List.nodup_cons.mpr ⟨fun hmem => ?_, h.nodup⟩
    obtain ⟨d, hd, heq⟩ := List.mem_map.mp hmem
    exact (h.reserved_fresh d hd).2 (heq ▸ hself)

/-- An integer register that is allocated. -/
abbrev gprSlot (d : T.Register) : Slot T := ⟨d, none⟩

theorem yields_freshVreg : Yields (Known M start reserved facts compared) freshVreg
    (fun d => Known M start (gprSlot d :: reserved) facts compared) :=
  fun sel h => ⟨_, _, rfl, h.reserve ⟨sel.next, rfl⟩ (.inl rfl)⟩

/-- Code that writes a register allocated since the start. -/
theorem Reaches.write {d : T.Register} {v : BitVec 64} {code code' : List T.Inst} {s s' : M.State}
    {facts' : List (Fact T)} {compared' : Option (BitVec 64 × BitVec 64)}
    (h : Reaches M start facts compared code s) (hd : FreshFrom T start.next d)
    (hfacts : ∀ f ∈ facts', f ∈ facts ∧ f.reg ≠ d) (hrun : M.run code' s = some s')
    (hread : M.read s' = Function.update (M.read s) d (v.setWidth 128))
    (hflags : ∀ a b, compared' = some (a, b) → ∀ p, M.condition s' p = some (compares p a b)) :
    Reaches M start (⟨d, v⟩ :: facts') compared' (code ++ code') s' := by
  have hword := M.word_update hread
  refine ⟨?_, fun r hr => ?_, List.forall_mem_cons.mpr ⟨?_, fun f hf => ?_⟩, hflags⟩
  · have hrun' : (M.run code start.state).bind (M.run code') = some s' := by
      rw [h.runs, Option.bind_some, hrun]
    exact (runInsts_append M.step code code' start.state).trans hrun'
  · have hne : r ≠ d := by
      rintro rfl
      exact hr hd
    rw [hread, Function.update_of_ne hne]
    exact h.unchanged r hr
  · rw [hword, Function.update_self]
  · rw [hword, Function.update_of_ne (hfacts f hf).2]
    exact h.holds f (hfacts f hf).1

/-- Code that writes a reserved register, where the code before it has led. -/
theorem Known.step {d : Slot T} {v : BitVec 64} {before code : List T.Inst} {s s' : M.State}
    {compared' : Option (BitVec 64 × BitVec 64)} {sel : Selection T}
    (h : Known M start (d :: reserved) facts compared sel)
    (hbefore : sel.code = start.code ++ before) (hreach : Reaches M start facts compared before s)
    (hrun : M.run code s = some s')
    (hread : M.read s' = Function.update (M.read s) d.reg (v.setWidth 128))
    (hflags : ∀ a b, compared' = some (a, b) → ∀ p, M.condition s' p = some (compares p a b)) :
    Known M start reserved (⟨d.reg, v⟩ :: facts) compared' ⟨sel.next, sel.code ++ code⟩ := by
  have hd := h.reserved_fresh d List.mem_cons_self
  have hne := h.reserved_ne d List.mem_cons_self
  have hnodup := List.nodup_cons.mp h.nodup
  refine ⟨h.next_le, ⟨before ++ code, s', ?_, ?_⟩, List.forall_mem_cons.mpr ⟨hd.2, h.allocated⟩,
    fun e he => h.reserved_virtual e (List.mem_cons_of_mem _ he),
    fun e he => h.reserved_fresh e (List.mem_cons_of_mem _ he), fun e he => ?_, hnodup.2⟩
  · rw [hbefore, List.append_assoc]
  · exact hreach.write hd.1 (fun f hf => ⟨hf, hne f hf⟩) hrun hread hflags
  · refine List.forall_mem_cons.mpr ⟨fun heq => ?_, h.reserved_ne e (List.mem_cons_of_mem _ he)⟩
    have hreg : d.reg = e.reg := heq
    exact hnodup.1 (hreg ▸ List.mem_map_of_mem he)

/-- Code that writes a reserved register, whatever it writes. -/
theorem Known.writes {d : Slot T} {code : List T.Inst} {sel : Selection T}
    (h : Known M start (d :: reserved) facts compared sel)
    (hcode : Writes M.step M.read code d.reg) :
    ∃ v, Known M start reserved (⟨d.reg, v⟩ :: facts) none ⟨sel.next, sel.code ++ code⟩ := by
  obtain ⟨before, s, hbefore, hreach⟩ := h.reaches
  obtain ⟨s', v, hrun, hread⟩ := hcode s
  exact ⟨v, h.step hbefore hreach hrun hread fun _ _ hn => absurd hn (Option.some_ne_none _ ∘ Eq.symm)⟩

/-- Emitting such code. -/
theorem Yields.write {d : Slot T} {v : BitVec 64} {code : List T.Inst}
    {compared' : Option (BitVec 64 × BitVec 64)}
    (hcode : ∀ s, (∀ f ∈ facts, M.word s f.reg = f.value) →
      (∀ a b, compared = some (a, b) → ∀ p, M.condition s p = some (compares p a b)) →
      ∃ s', M.run code s = some s' ∧
        M.read s' = Function.update (M.read s) d.reg (v.setWidth 128) ∧
        ∀ a b, compared' = some (a, b) → ∀ p, M.condition s' p = some (compares p a b)) :
    Yields (Known M start (d :: reserved) facts compared) (emitAll code)
      (fun _ => Known M start reserved (⟨d.reg, v⟩ :: facts) compared') := by
  intro sel h
  obtain ⟨before, s, hbefore, hreach⟩ := h.reaches
  obtain ⟨s', hrun, hread, hflags⟩ := hcode s hreach.holds hreach.flags
  exact ⟨(), _, rfl, h.step hbefore hreach hrun hread hflags⟩

theorem Known.gpr_virtual {d : T.Register} {sel : Selection T}
    (h : Known M start (gprSlot d :: reserved) facts compared sel) : ∃ i, d = T.virtualGpr i :=
  h.reserved_virtual (gprSlot d) List.mem_cons_self

variable {d a b : T.Register} {x y : BitVec 64}

theorem yields_binary {op : WordOp} (hop : M.has op) [ha : Knows facts a x] [hb : Knows facts b y] :
    Yields (Known M start (gprSlot d :: reserved) facts compared) (emit (T.binary op d a b))
      (fun _ => Known M start reserved (⟨d, op.eval x y⟩ :: facts) none) := by
  intro sel h
  obtain ⟨i, rfl⟩ := h.gpr_virtual
  refine Yields.write (fun s hs _ => ?_) sel h
  obtain ⟨s', hstep, hread⟩ := M.step_binary hop s i a b
  have hx : M.word s a = x := hs _ ha.mem
  have hy : M.word s b = y := hs _ hb.mem
  rw [M.word_eq hx, M.word_eq hy] at hread
  exact ⟨s', M.run_single hstep, hread, fun _ _ h => absurd h (Option.some_ne_none _ ∘ Eq.symm)⟩

theorem yields_cmp [ha : Knows facts a x] [hb : Knows facts b y] :
    Yields (Known M start reserved facts compared) (emit (T.cmp a b))
      (fun _ => Known M start reserved facts (some (x, y))) := by
  intro sel h
  obtain ⟨before, s, hbefore, hreach⟩ := h.reaches
  obtain ⟨s', hstep, hread, hcond⟩ := M.step_cmp s a b
  have hx : M.word s a = x := hreach.holds _ ha.mem
  have hy : M.word s b = y := hreach.holds _ hb.mem
  rw [M.word_eq hx, M.word_eq hy] at hcond
  refine ⟨(), _, rfl, h.next_le, ⟨before ++ [T.cmp a b], s', ?_, ?_, fun r hr => ?_,
    fun f hf => ?_, ?_⟩, h.allocated, h.reserved_virtual, h.reserved_fresh, h.reserved_ne, h.nodup⟩
  · rw [hbefore, List.append_assoc]
  · have hrun' : (M.run before start.state).bind (M.run [T.cmp a b]) = some s' := by
      rw [hreach.runs, Option.bind_some, M.run_single hstep]
    exact (runInsts_append M.step before _ start.state).trans hrun'
  · rw [hread]
    exact hreach.unchanged r hr
  · rw [Machine.word, hread]
    exact hreach.holds f hf
  · rintro _ _ ⟨rfl, rfl⟩
    exact hcond

theorem yields_cset {predicate : ICmpPredicate} :
    Yields (Known M start (gprSlot d :: reserved) facts (some (x, y))) (emit (T.cset d predicate))
      (fun _ => Known M start reserved (⟨d, bit (compares predicate x y)⟩ :: facts)
        (some (x, y))) := by
  intro sel h
  obtain ⟨i, rfl⟩ := h.gpr_virtual
  refine Yields.write (fun s _ hs => ?_) sel h
  obtain ⟨s', hstep, hread, hcond⟩ := M.step_cset (hs x y rfl predicate) i
  refine ⟨s', M.run_single hstep, hread, fun a b hab p => ?_⟩
  rw [hcond]
  exact hs a b hab p

theorem yields_immediate {v : Nat} :
    Yields (Known M start (gprSlot d :: reserved) facts compared)
      (emitAll (T.materializeU64Immediate d v))
      (fun _ => Known M start reserved (⟨d, BitVec.ofNat 64 v⟩ :: facts) none) := by
  intro sel h
  obtain ⟨i, rfl⟩ := h.gpr_virtual
  refine Yields.write (fun s _ _ => ?_) sel h
  obtain ⟨s', hrun, hread⟩ := M.run_immediate s i v
  exact ⟨s', hrun, hread, fun _ _ h => absurd h (Option.some_ne_none _ ∘ Eq.symm)⟩

/-- An instruction that reads the register it writes. -/
theorem yields_overwrite {op : WordOp} (hop : M.has op) (hvirtual : ∃ i, d = T.virtualGpr i)
    (hd : FreshFrom T start.next d) (hne : ∀ f ∈ facts, f.reg ≠ d) [hb : Knows facts b y] :
    Yields (Known M start reserved (⟨d, x⟩ :: facts) compared) (emit (T.binary op d d b))
      (fun _ => Known M start reserved (⟨d, op.eval x y⟩ :: facts) none) := by
  intro sel h
  obtain ⟨i, rfl⟩ := hvirtual
  obtain ⟨before, s, hbefore, hreach⟩ := h.reaches
  obtain ⟨s', hstep, hread⟩ := M.step_binary hop s i (T.virtualGpr i) b
  have hx : M.word s (T.virtualGpr i) = x := hreach.holds _ List.mem_cons_self
  have hy : M.word s b = y := hreach.holds _ (List.mem_cons_of_mem _ hb.mem)
  rw [M.word_eq hx, M.word_eq hy] at hread
  refine ⟨(), _, rfl, h.next_le, ⟨before ++ [T.binary op (T.virtualGpr i) (T.virtualGpr i) b],
    s', ?_, ?_⟩, fun f hf => ?_,
    h.reserved_virtual, h.reserved_fresh, fun e he f hf => ?_, h.nodup⟩
  · rw [hbefore, List.append_assoc]
  · exact hreach.write hd (fun f hf => ⟨List.mem_cons_of_mem _ hf, hne f hf⟩) (M.run_single hstep)
      hread fun _ _ hn => absurd hn (Option.some_ne_none _ ∘ Eq.symm)
  · rcases List.mem_cons.mp hf with rfl | hf
    · exact h.allocated ⟨T.virtualGpr i, x⟩ List.mem_cons_self
    · exact h.allocated f (List.mem_cons_of_mem _ hf)
  · rcases List.mem_cons.mp hf with rfl | hf
    · exact h.reserved_ne e he ⟨T.virtualGpr i, x⟩ List.mem_cons_self
    · exact h.reserved_ne e he f (List.mem_cons_of_mem _ hf)

theorem yields_emitBinary {op : WordOp} (hop : M.has op) [Knows facts a x] [Knows facts b y] :
    Yields (Known M start reserved facts compared) (emitBinary op a b)
      (fun d => Known M start reserved (⟨d, op.eval x y⟩ :: facts) none) :=
  yields_freshVreg.bind fun _ => (yields_binary hop).bind fun _ => .pure fun _ h => h

theorem yields_emitConstant {v : Nat} :
    Yields (Known M start reserved facts compared) (emitConstant v)
      (fun d => Known M start reserved (⟨d, BitVec.ofNat 64 v⟩ :: facts) none) :=
  yields_freshVreg.bind fun _ => yields_immediate.bind fun _ => .pure fun _ h => h

/-! ## Less known, and partial results -/

/-- Some of the facts, without the flags. -/
theorem Known.forget {facts' : List (Fact T)} {sel : Selection T}
    (h : Known M start reserved facts compared sel) (hsub : facts' ⊆ facts) :
    Known M start reserved facts' none sel := by
  obtain ⟨code, s, hcode, hreach⟩ := h.reaches
  exact ⟨h.next_le, ⟨code, s, hcode, hreach.runs, hreach.unchanged,
    fun f hf => hreach.holds f (hsub hf), fun _ _ hn => absurd hn (Option.some_ne_none _ ∘ Eq.symm)⟩,
    fun f hf => h.allocated f (hsub hf), h.reserved_virtual, h.reserved_fresh,
    fun d hd f hf => h.reserved_ne d hd f (hsub hf), h.nodup⟩

/-- A register that is not fresh holds some word. -/
theorem Known.observe {r : T.Register} {sel : Selection T}
    (h : Known M start [] facts compared sel) (hr : ¬FreshFrom T sel.next r) :
    ∃ v, Known M start [] (⟨r, v⟩ :: facts) compared sel := by
  obtain ⟨code, s, hcode, hreach⟩ := h.reaches
  exact ⟨M.word s r, h.next_le, ⟨code, s, hcode, hreach.runs, hreach.unchanged,
    List.forall_mem_cons.mpr ⟨rfl, hreach.holds⟩, hreach.flags⟩,
    List.forall_mem_cons.mpr ⟨hr, h.allocated⟩, h.reserved_virtual, h.reserved_fresh,
    fun d hd => absurd hd List.not_mem_nil, h.nodup⟩

end Rules

/-- From where `P` holds, if the selection succeeds then with a result such that `Q`. -/
def Ensures {α : Type} (P : Selection T → Prop) (m : Select T α) (Q : α → Selection T → Prop) :
    Prop :=
  ∀ sel, P sel → ∀ a sel', m sel = .ok (a, sel') → Q a sel'

section Ensures

variable {α β : Type} {P : Selection T → Prop} {Q : α → Selection T → Prop}

theorem Yields.ensures {m : Select T α} (h : Yields P m Q) : Ensures P m Q := by
  intro sel hp a sel' hrun
  obtain ⟨b, sel'', hrun', hq⟩ := h sel hp
  obtain ⟨rfl, rfl⟩ := Prod.mk.inj (Except.ok.inj (hrun.symm.trans hrun'))
  exact hq

theorem Ensures.bind {m : Select T α} {k : α → Select T β} {R : β → Selection T → Prop}
    (hm : Ensures P m Q) (hk : ∀ a, Ensures (Q a) (k a) R) : Ensures P (m >>= k) R := by
  intro sel hp b sel'' hrun
  have hrun' : (m sel >>= fun p => k p.1 p.2) = .ok (b, sel'') := hrun
  rcases hm' : m sel with e | ⟨a, sel'⟩
  · rw [hm'] at hrun'
    exact absurd hrun' (fun h => nomatch h)
  · rw [hm'] at hrun'
    exact hk a sel' (hm sel hp a sel' hm') b sel'' hrun'

theorem Ensures.pure {a : α} (h : ∀ sel, P sel → Q a sel) : Ensures P (Pure.pure a) Q :=
  (Yields.pure h).ensures

theorem Ensures.throw {e : String} : Ensures P (MonadExcept.throw e : Select T α) Q := by
  intro sel _ a sel' hrun
  have hrun' : (Except.error e : Except String (α × Selection T)) = .ok (a, sel') := hrun
  exact absurd hrun' (fun h => nomatch h)

theorem Ensures.weaken {m : Select T α} {Q' : α → Selection T → Prop} (hm : Ensures P m Q)
    (h : ∀ a sel, Q a sel → Q' a sel) : Ensures P m Q' :=
  fun sel hp a sel' hrun => h a sel' (hm sel hp a sel' hrun)

end Ensures

end Crabbit.Isel
