/-
  Crabbit.X86.FrameSound

  The frame of a lowered function along its runs: what frame lowering leaves
  is typed by `FrameMachine` whenever the function satisfies `FrameSafe`, and
  a function that loads a stack argument into a callee-saved register loses
  the caller's value of it.
-/

import Crabbit.X86.FrameMachine

namespace Crabbit.X86

open Crabbit.Lib

/-! ## Code with its lowering of `rsp` -/

theorem along_append (P : Nat → Inst → Prop) (code code' : List Inst) : ∀ m : Nat,
    Along P m (code ++ code') ↔ Along P m code ∧ Along P (loweringAfter m code) code' := by
  induction code with
  | nil => intro m; simp [Along, loweringAfter]
  | cons inst code ih =>
    intro m
    simp only [List.cons_append, Along, ih, loweringAfter, List.foldl_cons, and_assoc]

theorem loweringAfter_append (m : Nat) (code code' : List Inst) :
    loweringAfter m (code ++ code') = loweringAfter (loweringAfter m code) code' :=
  List.foldl_append

/-- Stack-argument loads leave `rsp` alone. -/
theorem loweringAfter_stackArgLoads (code : List Inst) : ∀ {m : Nat},
    Along IselShape m code → (∀ inst ∈ code, inst.isStackArgLoad = true) →
      loweringAfter m code = m := by
  induction code with
  | nil => intro m _ _; rfl
  | cons inst code ih =>
    intro m hshape hload
    have hinst : inst.lowering m = m := by
      cases hop : inst.frameOp with
      | none => simp only [Inst.lowering, hop]
      | some op =>
        obtain ⟨reg, off, rfl⟩ := Inst.frameOp_of_isStackArgLoad (hload inst (by simp)) hop
        simp only [Inst.lowering, hop]
    have htail : Along IselShape m code := by
      have := hshape.2
      rwa [hinst] at this
    show loweringAfter (inst.lowering m) code = m
    rw [hinst]
    exact ih htail fun i hi => hload i (List.mem_cons_of_mem _ hi)

/-! ## Prologue and epilogue -/

theorem insertBlockEpilogues_append (size : Nat) (code code' : List Inst) :
    insertBlockEpilogues size (code ++ code') =
      insertBlockEpilogues size code ++ insertBlockEpilogues size code' := by
  induction code with
  | nil => rfl
  | cons inst code ih =>
    simp only [List.cons_append, insertBlockEpilogues, ih]
    split
    · rw [List.append_assoc, List.cons_append]
    · rfl

theorem insertBlockEpilogues_eq_self {size : Nat} (code : List Inst)
    (h : ∀ inst ∈ code, inst.opcode ≠ .ret) : insertBlockEpilogues size code = code := by
  induction code with
  | nil => rfl
  | cons inst code ih =>
    rw [insertBlockEpilogues, if_neg (h inst (by simp)),
      ih fun i hi => h i (List.mem_cons_of_mem _ hi)]

theorem not_ret_of_mem_prologue {size : Nat} {inst : Inst} (h : inst ∈ prologue size) :
    inst.opcode ≠ .ret := by
  rcases List.mem_append.mp h with h | h
  · obtain ⟨reg, -, rfl⟩ := List.mem_map.mp h
    simp [Inst.push]
  · split at h
    · rw [List.mem_singleton.mp h]
      simp [Inst.subSpImm]
    · cases h

/-- The pushes of the registers from the `k`-th on. -/
theorem codeTyped_pushes {size : Nat} {code : List Inst} (h : CodeTyped size 5 0 code) :
    ∀ k ≤ 5, CodeTyped size k 0
      (((calleeSaved.drop k).map Register.gpr).map Inst.push ++ code) := by
  intro k hk
  induction hk using Nat.decreasingInduction with
  | self => exact h
  | of_succ k hlt ih =>
    have hget : calleeSaved[k]? = some calleeSaved[k] := List.getElem?_eq_getElem hlt
    rw [List.drop_eq_getElem_cons hlt]
    exact ⟨.push (.gpr calleeSaved[k]), k + 1, 0, rfl, ⟨rfl, rfl, rfl, _, hget, rfl⟩, ih⟩

theorem codeTyped_prologue {size : Nat} {code : List Inst} (h : CodeTyped size 5 size code) :
    CodeTyped size 0 0 (prologue size ++ code) := by
  have hlower : CodeTyped size 5 0
      ((if 0 < size then [Inst.subSpImm size] else []) ++ code) := by
    by_cases hsize : 0 < size
    · rw [if_pos hsize]
      exact ⟨.subSp size, 5, size, rfl, ⟨rfl, (Nat.zero_add size).symm⟩, h⟩
    · rw [if_neg hsize]
      obtain rfl : size = 0 := Nat.eq_zero_of_not_pos hsize
      exact h
  rw [prologue, List.append_assoc]
  exact codeTyped_pushes hlower 0 (Nat.zero_le 5)

/-- The pops of the first `k` registers, last one first. -/
theorem codeTyped_pops {size : Nat} {code : List Inst} (h : CodeTyped size 0 0 code) :
    ∀ k ≤ 5, CodeTyped size k 0
      (((calleeSaved.take k).reverse.map Register.gpr).map Inst.pop ++ code) := by
  intro k
  induction k with
  | zero => exact fun _ => h
  | succ k ih =>
    intro hk
    have hlt : k < calleeSaved.length := hk
    have hget : calleeSaved[k]? = some calleeSaved[k] := List.getElem?_eq_getElem hlt
    rw [List.take_succ_eq_append_getElem hlt, List.reverse_append]
    exact ⟨.pop (.gpr calleeSaved[k]), k, 0, rfl, ⟨rfl, rfl, rfl, _, hget, rfl⟩,
      ih (Nat.le_of_succ_le hk)⟩

theorem codeTyped_epilogue {size : Nat} {code : List Inst} (h : CodeTyped size 0 0 code) :
    CodeTyped size 5 size (epilogue size ++ code) := by
  have hpops : CodeTyped size 5 0 (CALLEE_SAVED_GPRS.reverse.map Inst.pop ++ code) := by
    rw [CALLEE_SAVED_GPRS, ← List.map_reverse]
    exact codeTyped_pops h 5 (Nat.le_refl 5)
  rw [epilogue, List.append_assoc]
  by_cases hsize : 0 < size
  · rw [if_pos hsize]
    exact ⟨.addSp size, 5, 0, rfl, ⟨rfl, (Nat.zero_add size).symm⟩, hpops⟩
  · rw [if_neg hsize]
    obtain rfl : size = 0 := Nat.eq_zero_of_not_pos hsize
    exact hpops

/-! ## Bodies -/

/-- One operation of a body other than `ret`. -/
theorem frameTyped_body {size m : Nat} {inst : Inst} {op : FrameOp} (hop : inst.frameOp = some op)
    (hret : op ≠ .ret) (hsize : size % 16 = 0) (hm : m % 16 = 0) (hshape : IselShape m inst)
    (haccess : FrameAccess size m inst) :
    FrameTyped size op 5 (size + m) 5 (size + inst.lowering m) ∧ inst.lowering m % 16 = 0 := by
  simp only [IselShape, hop] at hshape
  simp only [FrameAccess, hop] at haccess
  simp only [Inst.lowering, hop]
  cases op with
  | push reg => exact hshape.elim
  | pop reg => exact hshape.elim
  | subSp n =>
    obtain ⟨rfl, hn⟩ := hshape
    exact ⟨⟨rfl, rfl⟩, hn⟩
  | addSp n =>
    obtain rfl := hshape
    exact ⟨⟨rfl, rfl⟩, rfl⟩
  | stackArg reg off => exact haccess.elim
  | load n reg off =>
    obtain ⟨rfl, hfit⟩ := haccess
    exact ⟨⟨rfl, rfl, rfl, rfl, hshape, hfit⟩, hm⟩
  | store n reg off =>
    refine ⟨⟨rfl, rfl, rfl, Nat.le_add_right _ _, fun h => haccess (by omega), fun h => ?_⟩, hm⟩
    rw [Nat.add_sub_cancel_left]
    exact hshape (by omega)
  | call => exact ⟨⟨rfl, rfl, rfl, by omega⟩, hm⟩
  | pointerStore => exact ⟨⟨rfl, rfl, rfl⟩, hm⟩
  | compute rd => exact ⟨⟨rfl, rfl, rfl, hshape⟩, hm⟩
  | jump t =>
    obtain ⟨rfl, ht⟩ := hshape
    exact ⟨⟨rfl, rfl, rfl, rfl, ht⟩, hm⟩
  | branch t =>
    obtain ⟨rfl, ht⟩ := hshape
    exact ⟨⟨rfl, rfl, rfl, rfl, ht⟩, hm⟩
  | ret => exact absurd rfl hret
  | trap =>
    obtain rfl : m = 0 := hshape
    exact ⟨⟨rfl, rfl, rfl, rfl⟩, hm⟩

theorem frameOp_eq_ret_iff {inst : Inst} : inst.frameOp = some .ret ↔ inst.opcode = .ret := by
  refine ⟨fun h => ?_, Inst.frameOp_of_ret⟩
  by_contra hne
  revert h
  unfold Inst.frameOp
  split <;> simp_all [Inst.spAccess, Option.bind_eq_some_iff]

/-- A body with its epilogues, `rsp` being lowered by `m` at its start. -/
theorem codeTyped_body {size : Nat} (hsize : size % 16 = 0) (code : List Inst) : ∀ {m : Nat},
    m % 16 = 0 → Along IselShape m code → Along (FrameAccess size) m code →
      loweringAfter m code = 0 → CodeTyped size 5 (size + m) (insertBlockEpilogues size code) := by
  induction code with
  | nil =>
    intro m _ _ _ hend
    obtain rfl : m = 0 := hend
    exact ⟨rfl, rfl⟩
  | cons inst code ih =>
    intro m hm hshape haccess hend
    have hne : inst.frameOp ≠ none := by
      intro hnone
      have := hshape.1
      simp only [IselShape, hnone] at this
    obtain ⟨op, hop⟩ := Option.ne_none_iff_exists'.mp hne
    rw [insertBlockEpilogues]
    split
    · -- a `ret` behind its epilogue
      have hret : inst.frameOp = some .ret := Inst.frameOp_of_ret ‹_›
      have hshape₁ := hshape.1
      simp only [IselShape, hret] at hshape₁
      subst hshape₁
      have hlow : inst.lowering 0 = 0 := by simp only [Inst.lowering, hret]
      have hrest := ih (m := inst.lowering 0) (by rw [hlow]) hshape.2 haccess.2 hend
      rw [hlow] at hrest
      exact codeTyped_epilogue ⟨.ret, 5, size, hret, ⟨rfl, rfl, rfl, rfl⟩, hrest⟩
    · have hnret : op ≠ .ret := by
        rintro rfl
        exact absurd (frameOp_eq_ret_iff.mp hop) ‹_›
      obtain ⟨htyped, hlow⟩ := frameTyped_body hop hnret hsize hm hshape.1 haccess.1
      exact ⟨op, 5, _, hop, htyped, ih hlow hshape.2 haccess.2 hend⟩

/-! ## The whole function -/

/-- The loads in front of the prologue. -/
theorem codeTyped_prefix {size : Nat} {rest : List Inst} (h : CodeTyped size 0 0 rest)
    (loads : List Inst) : ∀ {m : Nat}, Along IselShape m loads →
      (∀ inst ∈ loads, inst.isStackArgLoad = true) →
      (∀ inst ∈ loads, ∀ r ∈ calleeSaved, inst.rd ≠ some (.gpr r)) →
        CodeTyped size 0 0 (loads ++ rest) := by
  induction loads with
  | nil => exact fun _ _ _ => h
  | cons inst loads ih =>
    intro m hshape hload hdest
    have hne : inst.frameOp ≠ none := by
      intro hnone
      have := hshape.1
      simp only [IselShape, hnone] at this
    obtain ⟨op, hop⟩ := Option.ne_none_iff_exists'.mp hne
    have hisLoad := hload inst (by simp)
    obtain ⟨reg, off, rfl⟩ := Inst.frameOp_of_isStackArgLoad hisLoad hop
    have hrsp := hshape.1
    simp only [IselShape, hop] at hrsp
    have hrd : inst.rd = some reg := by
      have hopcode : inst.opcode = .ldrStackArg := beq_iff_eq.mp hisLoad
      simp only [Inst.frameOp, hopcode] at hop
      obtain ⟨reg', off', hrd, -, heq⟩ := Inst.spAccess_eq_some hop
      obtain ⟨rfl, rfl⟩ := FrameOp.stackArg.inj heq
      exact hrd
    refine ⟨_, 0, 0, hop, ⟨rfl, rfl, rfl, rfl, hrsp, fun r hr heq => ?_⟩, ?_⟩
    · exact hdest inst (by simp) r hr (hrd.trans (congrArg some heq))
    · exact ih hshape.2 (fun i hi => hload i (List.mem_cons_of_mem _ hi))
        (fun i hi => hdest i (List.mem_cons_of_mem _ hi))

theorem codeTyped_entry {f : MachineFunc} (halloc : Allocated f) (hsafe : FrameSafe f) :
    CodeTyped f.stackSize 0 0
      (insertBlockEpilogues f.stackSize (insertPrologue f.entry f.stackSize)) := by
  have hsplit : f.entry.takeWhile Inst.isStackArgLoad ++ f.entry.dropWhile Inst.isStackArgLoad =
      f.entry := List.takeWhile_append_dropWhile
  have hload : ∀ inst ∈ f.entry.takeWhile Inst.isStackArgLoad, inst.isStackArgLoad = true :=
    List.all_eq_true.mp List.all_takeWhile
  have hshape := halloc.shape f.entry (by simp)
  have hraised := halloc.raised f.entry (by simp)
  rw [← hsplit] at hshape hraised
  rw [along_append] at hshape
  have hlow := loweringAfter_stackArgLoads _ hshape.1 hload
  rw [loweringAfter_append, hlow] at hraised
  have hbody := codeTyped_body halloc.aligned _ rfl (hlow ▸ hshape.2) hsafe.entry hraised
  have hnret : ∀ inst ∈ f.entry.takeWhile Inst.isStackArgLoad ++ prologue f.stackSize,
      inst.opcode ≠ .ret := by
    intro inst hinst hret
    rcases List.mem_append.mp hinst with hinst | hinst
    · have hopcode := beq_iff_eq.mp (hload inst hinst)
      rw [hret] at hopcode
      cases hopcode
    · exact not_ret_of_mem_prologue hinst hret
  rw [insertPrologue, insertBlockEpilogues_append, insertBlockEpilogues_eq_self _ hnret,
    List.append_assoc]
  exact codeTyped_prefix (codeTyped_prologue hbody) _ hshape.1 hload hsafe.prefixDest

theorem blocksTyped_lowerFunctionFrame {f : MachineFunc} (halloc : Allocated f)
    (hsafe : FrameSafe f) : BlocksTyped f.stackSize (lowerFunctionFrame f) := by
  intro b code hcode
  cases b with
  | zero =>
    obtain rfl := Option.some.inj hcode
    exact codeTyped_entry halloc hsafe
  | succ b =>
    rw [if_neg (Nat.succ_ne_zero b)]
    simp only [lowerFunctionFrame, List.map_cons, List.getElem?_cons_succ,
      List.getElem?_map, Option.map_eq_some_iff] at hcode
    obtain ⟨block, hblock, rfl⟩ := hcode
    have hmem := List.mem_of_getElem? hblock
    have hin : block ∈ f.entry :: f.others := List.mem_cons_of_mem _ hmem
    exact codeTyped_body halloc.aligned block rfl (halloc.shape block hin)
      (hsafe.others block hmem) (halloc.raised block hin)

/-! ## The frame along runs -/

/-- Address of the lowest byte of the frame of `size` bytes, below the saved
    registers. -/
def frameBase (s₀ : State) (size : Nat) : Int := s₀.rsp - 40 - size

/-- What the calling convention asks at a point of a run from `s₀`: a `ret`
    finds `rsp` and the callee-saved registers of the entry, incoming stack
    arguments are read relative to the entry `rsp`, local slots and spill
    slots are accessed inside the frame, outgoing arguments below it, and
    `rsp` is aligned at calls. -/
structure FrameKept (size : Nat) (s₀ : State) (c : Config) : Prop where
  ret : ∀ inst rest, c.rest = inst :: rest → inst.opcode = .ret →
    c.state.rsp = s₀.rsp ∧ ∀ r ∈ calleeSaved, c.state.regs r = s₀.regs r
  stackArg : ∀ inst rest reg off, c.rest = inst :: rest →
    inst.frameOp = some (.stackArg reg off) → c.state.rsp + 8 + off = s₀.rsp + 8 + off
  load : ∀ inst rest n reg off, c.rest = inst :: rest →
    inst.frameOp = some (.load n reg off) →
      c.state.rsp = frameBase s₀ size ∧ off + n ≤ size
  store : ∀ inst rest n reg off, c.rest = inst :: rest →
    inst.frameOp = some (.store n reg off) →
      c.state.rsp = frameBase s₀ size ∧ off + n ≤ size ∨
        c.state.rsp < frameBase s₀ size ∧ c.state.rsp + off + n ≤ frameBase s₀ size
  call : ∀ inst rest, c.rest = inst :: rest → inst.frameOp = some .call → c.state.rsp % 16 = 0

theorem ConfigTyped.frameKept {size : Nat} {s₀ : State} {c : Config}
    (halign : s₀.rsp % 16 = 8) (h : ConfigTyped size s₀ c) : FrameKept size s₀ c := by
  obtain ⟨k, d, hcode, hinv⟩ := h
  have hrsp := hinv.rsp
  -- the typing of the operation at the head
  have hhead : ∀ inst rest op, c.rest = inst :: rest → inst.frameOp = some op →
      ∃ k' d', FrameTyped size op k d k' d' := by
    intro inst rest op hrest hop
    rw [hrest] at hcode
    obtain ⟨op', k', d', hop', ht, -⟩ := hcode
    obtain rfl := Option.some.inj (hop.symm.trans hop')
    exact ⟨k', d', ht⟩
  refine ⟨?_, ?_, ?_, ?_, ?_⟩
  · intro inst rest hrest hret
    obtain ⟨k', d', rfl, rfl, -⟩ := hhead inst rest .ret hrest (Inst.frameOp_of_ret hret)
    refine ⟨by omega, fun r hr => ?_⟩
    obtain ⟨j, hj⟩ := List.mem_iff_getElem?.mp hr
    exact hinv.kept j (Nat.zero_le j) r hj
  · intro inst rest reg off hrest hop
    obtain ⟨k', d', rfl, rfl, -⟩ := hhead inst rest _ hrest hop
    omega
  · intro inst rest n reg off hrest hop
    obtain ⟨k', d', rfl, rfl, -, -, -, hfit⟩ := hhead inst rest _ hrest hop
    refine ⟨?_, hfit⟩
    unfold frameBase
    omega
  · intro inst rest n reg off hrest hop
    obtain ⟨k', d', rfl, -, -, hle, hlocal, hout⟩ := hhead inst rest _ hrest hop
    unfold frameBase
    by_cases hd : d = size
    · exact .inl ⟨by omega, hlocal hd⟩
    · have := hout (by omega)
      exact .inr ⟨by omega, by omega⟩
  · intro inst rest hrest hop
    obtain ⟨k', d', rfl, -, -, hd⟩ := hhead inst rest _ hrest hop
    omega

/-- The entry state of a call: `rsp` points to the pushed return address. -/
theorem FrameInv.entry (s₀ : State) : FrameInv s₀ 0 0 s₀ where
  rsp := by omega
  saved := fun j hj => absurd hj (Nat.not_lt_zero j)
  kept := fun _ _ _ _ => rfl
  le := Nat.zero_le 5

/-- Every run of a function whose stack-argument loads spare the callee-saved
    registers and whose frame accesses keep to the frame meets the calling
    convention at every point. -/
theorem lowerFunctionFrame_kept (f : MachineFunc) (s₀ : State) (c : Config)
    (h_alloc : Allocated f) (h_safe : FrameSafe f) (h_align : s₀.rsp % 16 = 8)
    (h_run : Relation.ReflTransGen (Step (lowerFunctionFrame f) (savedBytes s₀))
      ⟨0, insertBlockEpilogues f.stackSize (insertPrologue f.entry f.stackSize), s₀⟩ c) :
    FrameKept f.stackSize s₀ c := by
  have hstart : ConfigTyped f.stackSize s₀
      ⟨0, insertBlockEpilogues f.stackSize (insertPrologue f.entry f.stackSize), s₀⟩ :=
    ⟨0, 0, codeTyped_entry h_alloc h_safe, FrameInv.entry s₀⟩
  exact (hstart.run (blocksTyped_lowerFunctionFrame h_alloc h_safe) h_run).frameKept h_align

/-! ## A seventh argument in `rbx` -/

/-- The result of an operation that leaves everything open unchanged. -/
def FrameOp.perform (op : FrameOp) (s : State) : State :=
  match op with
  | .push reg => { s with rsp := s.rsp - 8, mem := s.mem.storeWord (s.rsp - 8) (s.get reg) }
  | .pop reg => ({ s with rsp := s.rsp + 8 } : State).set reg (s.mem.loadWord s.rsp)
  | .subSp n => { s with rsp := s.rsp - n }
  | .addSp n => { s with rsp := s.rsp + n }
  | .stackArg reg off => s.set reg (s.mem.loadWord (s.rsp + 8 + off))
  | .load n reg off => s.set reg (BitVec.ofNat 64 (ofLE (s.mem.load (s.rsp + off) n)))
  | .store n reg off => { s with mem := s.mem.store (s.rsp + off) (toLE n (s.get reg).toNat) }
  | .call | .pointerStore | .compute _ | .jump _ | .branch _ | .ret | .trap => s

def FrameOp.isStraight : FrameOp → Bool
  | .jump _ | .branch _ | .ret | .trap => false
  | _ => true

theorem FrameOp.exec_perform (own : Int → Prop) {op : FrameOp} (h : op.isStraight = true)
    (s : State) : Exec own op s (op.perform s) := by
  cases op with
  | call => exact ⟨rfl, fun _ _ => rfl, fun _ _ => rfl⟩
  | pointerStore => exact ⟨rfl, rfl, fun _ _ => rfl⟩
  | compute rd => exact ⟨fun _ => rfl, fun _ _ _ => rfl, rfl⟩
  | jump t => cases h
  | branch t => cases h
  | ret => cases h
  | trap => cases h
  | _ => rfl

/-- Straight-line code runs to its end. -/
theorem run_straight (blocks : List (List Inst)) (own : Int → Prop) (b : Nat)
    (rest : List Inst) : ∀ (code : List Inst) (ops : List FrameOp) (s : State),
    code.mapM Inst.frameOp = some ops → (∀ op ∈ ops, op.isStraight = true) →
      Relation.ReflTransGen (Step blocks own) ⟨b, code ++ rest, s⟩
        ⟨b, rest, ops.foldl (fun s op => op.perform s) s⟩ := by
  intro code
  induction code with
  | nil =>
    intro ops s hops _
    obtain rfl : [] = ops := by simpa using hops
    exact .refl
  | cons inst code ih =>
    intro ops s hops hstraight
    simp only [List.mapM_cons, Option.pure_def, Option.bind_eq_bind, Option.bind_eq_some_iff,
      Option.some.injEq] at hops
    obtain ⟨op, hop, ops', hops', rfl⟩ := hops
    refine .head (.exec hop (FrameOp.exec_perform own (hstraight op (by simp)) s)) ?_
    exact ih ops' _ hops' fun o ho => hstraight o (List.mem_cons_of_mem _ ho)

/-- A function of seven `i64` arguments that returns the last one, after
    register allocation: the stack argument has `rbx`, the six register
    arguments are copied to `r12` in turn. -/
def seventhArgument : MachineFunc where
  entry := [.ldrStackArg RBX 0, .mov R12 RDI, .mov R12 RSI, .mov R12 RDX, .mov R12 RCX,
    .mov R12 R8, .mov R12 R9, .mov RAX RBX, .ret]
  others := []
  stackSize := 0

/-- `rbx` is 0 at the entry and the argument is 1. -/
def seventhArgumentEntry : State where
  regs := fun _ => 0
  rsp := 8
  mem := fun a => if a = 16 then 1 else 0

/-- The function is one that the pass receives, and at its `ret` the caller's
    `rbx` is lost. -/
theorem seventhArgument_loses_rbx :
    Allocated seventhArgument ∧ seventhArgumentEntry.rsp % 16 = 8 ∧
      ∃ c, Relation.ReflTransGen
        (Step (lowerFunctionFrame seventhArgument) (savedBytes seventhArgumentEntry))
        ⟨0, insertBlockEpilogues 0 (insertPrologue seventhArgument.entry 0),
          seventhArgumentEntry⟩ c ∧ ¬ FrameKept 0 seventhArgumentEntry c := by
  refine ⟨⟨rfl, ?_, ?_⟩, rfl, ?_⟩
  · intro code hcode
    obtain rfl := List.mem_singleton.mp hcode
    have hr12 : (some R12 : Option Register) ≠ some RSP := by decide
    have hrax : (some RAX : Option Register) ≠ some RSP := by decide
    have hrbx : RBX ≠ RSP := by decide
    exact ⟨hrbx, hr12, hr12, hr12, hr12, hr12, hr12, hrax, rfl, trivial⟩
  · intro code hcode
    obtain rfl := List.mem_singleton.mp hcode
    rfl
  · refine ⟨_, run_straight _ _ 0 [.ret]
      ([.ldrStackArg RBX 0] ++ prologue 0 ++ [.mov R12 RDI, .mov R12 RSI, .mov R12 RDX,
        .mov R12 RCX, .mov R12 R8, .mov R12 R9, .mov RAX RBX] ++ epilogue 0) _
      seventhArgumentEntry rfl (by decide), fun h => ?_⟩
    have hrbx := (h.ret .ret [] rfl rfl).2 3 (by decide)
    revert hrbx
    decide

/-- A spilled stack argument: loaded before the prologue, stored to its slot
    behind it. -/
def spilledArgument : MachineFunc where
  entry := [.ldrStackArg R10 0, .strSpOffset R10 8, .ret]
  others := []
  stackSize := 16

theorem lowerFunctionFrame_kept_spilledArgument :
    ∃ c : Config, c.rest = [.ret] ∧ FrameKept 16 seventhArgumentEntry c := by
  have hrun := run_straight (lowerFunctionFrame spilledArgument)
    (savedBytes seventhArgumentEntry) 0 [.ret]
    ([.ldrStackArg R10 0] ++ prologue 16 ++ [.strSpOffset R10 8] ++ epilogue 16) _
    seventhArgumentEntry rfl (by decide)
  refine ⟨_, rfl, lowerFunctionFrame_kept spilledArgument _ _ ⟨rfl, ?_, ?_⟩ ⟨?_, ?_, ?_⟩ rfl hrun⟩
  · intro code hcode
    obtain rfl := List.mem_singleton.mp hcode
    have hr10 : R10 ≠ RSP := by decide
    exact ⟨hr10, fun h => absurd h (Nat.lt_irrefl 0), rfl, trivial⟩
  · intro code hcode
    obtain rfl := List.mem_singleton.mp hcode
    rfl
  · decide
  · exact ⟨fun _ => Nat.le_refl 16, trivial, trivial⟩
  · intro code hcode
    cases hcode

end Crabbit.X86
