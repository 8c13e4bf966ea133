/-
  Crabbit.Aarch64.EncodeLayout

  The layout the encode pass predicts is the layout of the bytes it emits:
  every instruction takes the predicted length, every recorded offset is the
  position of what it names, and every branch goes to its successor.
-/

import Crabbit.Aarch64.BranchSemantics
import Crabbit.Aarch64.Encode
import Mathlib.Data.String.Basic
import Mathlib.Tactic.Linarith

namespace Crabbit.Aarch64

open Crabbit.Lib

/-! ## Running the encoders -/

/-- A successful step of an encoder, and what the rest did with its result. -/
theorem bind_eq_ok {ε α β : Type} {x : Except ε α} {f : α → Except ε β} {b : β} :
    (x >>= f) = .ok b ↔ ∃ a, x = .ok a ∧ f a = .ok b := by
  cases x with
  | error e => exact ⟨fun h => (by cases h), fun ⟨a, h, _⟩ => (by cases h)⟩
  | ok a => exact ⟨fun h => ⟨a, rfl, h⟩, fun ⟨a', h, h'⟩ => by cases h; exact h'⟩

theorem orElse_eq_ok {α : Type} {x : Option α} {error : EncodeError} {a : α} :
    orElse x error = .ok a ↔ x = some a := by
  cases x with
  | none => exact ⟨fun h => (by cases h), fun h => (by cases h)⟩
  | some b => exact ⟨fun h => (by cases h; rfl), fun h => (by cases h; rfl)⟩

theorem wordEncoding_length (word : Nat) (fixup : Option BinaryFixup) :
    (wordEncoding word fixup).bytes.length = 4 := length_toLE 4 word

/-! ## Predicted lengths -/

theorem encodeWords_length {offsets : List (Nat × Nat)} {inst : Inst} {words : List BranchWord} :
    ∀ {pc : Nat} {bytes : List UInt8},
      encodeWords offsets inst pc words = .ok bytes → bytes.length = 4 * words.length := by
  induction words with
  | nil =>
    intro pc bytes h
    cases h
    rfl
  | cons word words ih =>
    intro pc bytes h
    obtain ⟨w, -, h⟩ := bind_eq_ok.mp h
    obtain ⟨rest, hrest, h⟩ := bind_eq_ok.mp h
    cases h
    rw [List.length_append, length_toLE, ih hrest, List.length_cons]
    omega

theorem encodePcRelativeAddress_length {rd : Nat} {delta : Int} {e : BinaryEncoding}
    (h : encodePcRelativeAddress rd delta = .ok e) : e.bytes.length = 12 := by
  rw [encodePcRelativeAddress] at h
  split at h
  · cases h
    simp only [List.length_append, length_toLE]
  · cases h

/-- Whether the instruction is a branch to blocks of its function. -/
def Inst.isBranch (inst : Inst) : Bool :=
  match inst.opcode with
  | .b | .bCond | .cbnz => true
  | _ => false

/-- Only branches have branch words. -/
theorem byteLen_of_not_branch {next : Option Nat} {inst : Inst} (h : inst.isBranch = false) :
    byteLen next inst = byteLenFor inst.opcode := by
  have hwords : branchWords next inst = none := by
    rw [Inst.isBranch] at h
    rw [branchWords]
    split <;> simp_all only [reduceCtorEq]
  rw [byteLen, hwords]

theorem encodeCall_length {offsets : List (String × Nat)} {inst : Inst} {pc : Nat}
    {e : BinaryEncoding} (h : encodeCall offsets inst pc = .ok e) : e.bytes.length = 4 := by
  obtain ⟨callee, -, h⟩ := bind_eq_ok.mp h
  split at h
  · obtain ⟨delta, -, h⟩ := bind_eq_ok.mp h
    cases h
    exact wordEncoding_length _ _
  · cases h
    exact wordEncoding_length _ _

theorem encodeAdrLiteral_length {offsets : List (String × Nat)} {inst : MachineInst} {pc : Nat}
    {e : BinaryEncoding} (h : encodeAdrLiteral offsets inst pc = .ok e) : e.bytes.length = 12 := by
  obtain ⟨label, -, h⟩ := bind_eq_ok.mp h
  obtain ⟨target, -, h⟩ := bind_eq_ok.mp h
  obtain ⟨rd, -, h⟩ := bind_eq_ok.mp h
  exact encodePcRelativeAddress_length h

theorem encodeAdrFunction_length {offsets : List (String × Nat)} {inst : Inst} {pc : Nat}
    {e : BinaryEncoding} (h : encodeAdrFunction offsets inst pc = .ok e) :
    e.bytes.length = 12 := by
  obtain ⟨symbol, -, h⟩ := bind_eq_ok.mp h
  obtain ⟨target, -, h⟩ := bind_eq_ok.mp h
  obtain ⟨rd, -, h⟩ := bind_eq_ok.mp h
  exact encodePcRelativeAddress_length h

theorem encodeAdrp_length {inst : Inst} {pc : Nat} {e : BinaryEncoding}
    (h : encodeAdrp inst pc = .ok e) : e.bytes.length = 4 := by
  obtain ⟨rd, -, h⟩ := bind_eq_ok.mp h
  obtain ⟨symbol, -, h⟩ := bind_eq_ok.mp h
  cases h
  exact wordEncoding_length _ _

theorem encodeAddSymbol_length {base : Nat} {kind : FixupKind} {inst : Inst} {pc : Nat}
    {e : BinaryEncoding} (h : encodeAddSymbol base kind inst pc = .ok e) :
    e.bytes.length = 4 := by
  obtain ⟨rd, -, h⟩ := bind_eq_ok.mp h
  obtain ⟨rn, -, h⟩ := bind_eq_ok.mp h
  obtain ⟨symbol, -, h⟩ := bind_eq_ok.mp h
  cases h
  exact wordEncoding_length _ _

theorem encodeBranch_length {offsets : List (Nat × Nat)} {next : Option Nat} {inst : Inst}
    {pc : Nat} {e : BinaryEncoding} (h : encodeBranch offsets next inst pc = .ok e) :
    e.bytes.length = byteLen next inst := by
  obtain ⟨words, hwords, h⟩ := bind_eq_ok.mp h
  obtain ⟨bytes, hbytes, h⟩ := bind_eq_ok.mp h
  cases h
  rw [byteLen, orElse_eq_ok.mp hwords]
  exact encodeWords_length hbytes

/-- `byte_len` predicts the number of bytes the encoder emits, for every
    instruction, every following block and every recorded offset. -/
theorem encodeInst_length {refs : BinarySerializationContext} {next : Option Nat} {pc : Nat}
    {inst : MachineInst} {e : BinaryEncoding} (h : encodeInst refs next pc inst = .ok e) :
    e.bytes.length = byteLen next inst.toInst := by
  have hfixed : inst.isBranch = false → byteLenFor inst.opcode = e.bytes.length →
      e.bytes.length = byteLen next inst.toInst := by
    intro hbranch hlen
    rw [byteLen_of_not_branch hbranch, hlen]
  -- one case for each arm of `encode_inst`; only the branches depend on the layout
  rw [encodeInst] at h
  split at h
  · next hop => exact hfixed (by rw [Inst.isBranch, hop]) (by rw [hop, encodeCall_length h]; rfl)
  · next hop =>
    exact hfixed (by rw [Inst.isBranch, hop]) (by rw [hop, encodeAdrLiteral_length h]; rfl)
  · next hop =>
    exact hfixed (by rw [Inst.isBranch, hop]) (by rw [hop, encodeAdrFunction_length h]; rfl)
  · next hop => exact hfixed (by rw [Inst.isBranch, hop]) (by rw [hop, encodeAdrp_length h]; rfl)
  · next hop =>
    exact hfixed (by rw [Inst.isBranch, hop]) (by rw [hop, encodeAddSymbol_length h]; rfl)
  · next hop =>
    exact hfixed (by rw [Inst.isBranch, hop]) (by rw [hop, encodeAddSymbol_length h]; rfl)
  · next hop =>
    exact hfixed (by rw [Inst.isBranch, hop]) (by rw [hop, encodeAddSymbol_length h]; rfl)
  · exact encodeBranch_length h
  · exact encodeBranch_length h
  · exact encodeBranch_length h
  · next hcall hlit hfunc hadrp hlo htp htplo hb hcond hcbnz =>
    obtain ⟨word, -, h⟩ := bind_eq_ok.mp h
    cases h
    apply hfixed
    · rw [Inst.isBranch]
      split <;> simp_all only [reduceCtorEq]
    · rw [wordEncoding_length, byteLenFor]
      · exact hlit
      · exact hfunc

theorem four_dvd_byteLen (next : Option Nat) (inst : Inst) : 4 ∣ byteLen next inst := by
  rw [byteLen]
  split
  · exact Nat.dvd_mul_right 4 _
  · unfold byteLenFor
    split <;> decide

/-! ## Positions inside a block and a function -/

theorem instsSize_append (next : Option Nat) (before after : List MachineInst) :
    instsSize next (before ++ after) = instsSize next before + instsSize next after := by
  rw [instsSize, List.map_append, List.sum_append]
  rfl

theorem instsSize_cons (next : Option Nat) (inst : MachineInst) (rest : List MachineInst) :
    instsSize next (inst :: rest) = byteLen next inst.toInst + instsSize next rest := by
  rw [instsSize, List.map_cons, List.sum_cons]
  rfl

theorem four_dvd_instsSize (next : Option Nat) (insts : List MachineInst) :
    4 ∣ instsSize next insts := by
  induction insts with
  | nil => exact Nat.dvd_zero 4
  | cons inst rest ih =>
    rw [instsSize_cons]
    exact Nat.dvd_add (four_dvd_byteLen next inst.toInst) ih

theorem encodeInsts_length {refs : BinarySerializationContext} {next : Option Nat}
    {insts : List MachineInst} : ∀ {pc : Nat} {e : BinaryEncoding},
      encodeInsts refs next pc insts = .ok e → e.bytes.length = instsSize next insts := by
  induction insts with
  | nil =>
    intro pc e h
    cases h
    rfl
  | cons inst rest ih =>
    intro pc e h
    obtain ⟨first, hfirst, h⟩ := bind_eq_ok.mp h
    obtain ⟨others, hothers, h⟩ := bind_eq_ok.mp h
    cases h
    rw [BinaryEncoding.append, List.length_append, encodeInst_length hfirst, ih hothers,
      instsSize_cons]

/-- An instruction is encoded where the lengths before it put it. -/
theorem encodeInsts_split {refs : BinarySerializationContext} {next : Option Nat}
    {inst : MachineInst} {after : List MachineInst} {before : List MachineInst} :
    ∀ {pc : Nat} {e : BinaryEncoding},
      encodeInsts refs next pc (before ++ inst :: after) = .ok e →
      ∃ pre encoded post, encodeInst refs next (pc + instsSize next before) inst = .ok encoded ∧
        e.bytes = pre ++ encoded.bytes ++ post ∧ pre.length = instsSize next before := by
  induction before with
  | nil =>
    intro pc e h
    obtain ⟨first, hfirst, h⟩ := bind_eq_ok.mp h
    obtain ⟨others, -, h⟩ := bind_eq_ok.mp h
    cases h
    exact ⟨[], first, others.bytes, hfirst, rfl, rfl⟩
  | cons inst' before ih =>
    intro pc e h
    obtain ⟨first, hfirst, h⟩ := bind_eq_ok.mp h
    obtain ⟨others, hothers, h⟩ := bind_eq_ok.mp h
    cases h
    obtain ⟨pre, encoded, post, henc, hbytes, hlen⟩ := ih hothers
    have hfirstLen := encodeInst_length hfirst
    refine ⟨first.bytes ++ pre, encoded, post, ?_, ?_, ?_⟩
    · rw [instsSize_cons, ← Nat.add_assoc, ← hfirstLen]
      exact henc
    · rw [BinaryEncoding.append, hbytes]
      simp only [List.append_assoc]
    · rw [List.length_append, hfirstLen, hlen, instsSize_cons]

/-- The predicted size of the blocks `before`, when `after` follow them. -/
def sizeBefore : List PlacedBlock → List PlacedBlock → Nat
  | [], _ => 0
  | block :: before, after =>
    instsSize (nextBlock (before ++ after)) block.insts + sizeBefore before after

theorem sizeBefore_snoc (before : List PlacedBlock) (block : PlacedBlock)
    (after : List PlacedBlock) :
    sizeBefore (before ++ [block]) after =
      sizeBefore before (block :: after) + instsSize (nextBlock after) block.insts := by
  induction before with
  | nil => rw [List.nil_append, sizeBefore, sizeBefore, sizeBefore, List.nil_append, Nat.add_comm]
  | cons first before ih =>
    rw [List.cons_append, sizeBefore, sizeBefore, ih, List.append_assoc, List.singleton_append,
      Nat.add_assoc]

theorem four_dvd_sizeBefore (before after : List PlacedBlock) : 4 ∣ sizeBefore before after := by
  induction before with
  | nil => exact Nat.dvd_zero 4
  | cons block before ih => exact Nat.dvd_add (four_dvd_instsSize _ _) ih

theorem four_dvd_blocksSize (blocks : List PlacedBlock) : 4 ∣ blocksSize blocks := by
  induction blocks with
  | nil => exact Nat.dvd_zero 4
  | cons block rest ih => exact Nat.dvd_add (four_dvd_instsSize _ _) ih

/-- The offset recorded for a block is where the sizes before it put it. -/
theorem lookup_blockOffsets {block : PlacedBlock} {after : List PlacedBlock}
    {before : List PlacedBlock} : ∀ {offset : Nat},
      ((before ++ block :: after).map PlacedBlock.id).Nodup →
      (blockOffsets offset (before ++ block :: after)).lookup block.id =
        some (offset + sizeBefore before (block :: after)) := by
  induction before with
  | nil =>
    intro offset _
    exact List.lookup_cons_self
  | cons first before ih =>
    intro offset hnodup
    rw [List.cons_append, List.map_cons, List.nodup_cons] at hnodup
    have hne : (block.id == first.id) = false := by
      rw [beq_eq_false_iff_ne]
      intro heq
      apply hnodup.1
      rw [← heq]
      exact List.mem_map_of_mem (List.mem_append_right _ List.mem_cons_self)
    rw [List.cons_append, blockOffsets, List.lookup_cons, hne, sizeBefore, ← Nat.add_assoc]
    exact ih hnodup.2

/-- Every recorded block offset is a multiple of the word size. -/
theorem four_dvd_of_lookup {id o : Nat} {blocks : List PlacedBlock} : ∀ {offset : Nat},
    4 ∣ offset → (blockOffsets offset blocks).lookup id = some o → 4 ∣ o := by
  induction blocks with
  | nil =>
    intro offset _ h
    cases h
  | cons block rest ih =>
    intro offset hoffset h
    rw [blockOffsets, List.lookup_cons] at h
    split at h
    · cases h
      exact hoffset
    · exact ih (Nat.dvd_add hoffset (four_dvd_instsSize _ _)) h

theorem encodeBlocks_length {refs : BinarySerializationContext} {blocks : List PlacedBlock} :
    ∀ {pc : Nat} {e : BinaryEncoding},
      encodeBlocks refs pc blocks = .ok e → e.bytes.length = blocksSize blocks := by
  induction blocks with
  | nil =>
    intro pc e h
    cases h
    rfl
  | cons block rest ih =>
    intro pc e h
    obtain ⟨first, hfirst, h⟩ := bind_eq_ok.mp h
    obtain ⟨others, hothers, h⟩ := bind_eq_ok.mp h
    cases h
    rw [BinaryEncoding.append, List.length_append, encodeInsts_length hfirst, ih hothers,
      blocksSize]

/-- A block is encoded where the sizes before it put it. -/
theorem encodeBlocks_split {refs : BinarySerializationContext} {block : PlacedBlock}
    {after : List PlacedBlock} {before : List PlacedBlock} :
    ∀ {pc : Nat} {e : BinaryEncoding},
      encodeBlocks refs pc (before ++ block :: after) = .ok e →
      ∃ pre encoded post,
        encodeInsts refs (nextBlock after) (pc + sizeBefore before (block :: after)) block.insts =
          .ok encoded ∧
        e.bytes = pre ++ encoded.bytes ++ post ∧
        pre.length = sizeBefore before (block :: after) := by
  induction before with
  | nil =>
    intro pc e h
    obtain ⟨first, hfirst, h⟩ := bind_eq_ok.mp h
    obtain ⟨others, -, h⟩ := bind_eq_ok.mp h
    cases h
    exact ⟨[], first, others.bytes, hfirst, rfl, rfl⟩
  | cons block' before ih =>
    intro pc e h
    obtain ⟨first, hfirst, h⟩ := bind_eq_ok.mp h
    obtain ⟨others, hothers, h⟩ := bind_eq_ok.mp h
    cases h
    obtain ⟨pre, encoded, post, henc, hbytes, hlen⟩ := ih hothers
    have hfirstLen : first.bytes.length =
        instsSize (nextBlock (before ++ block :: after)) block'.insts := encodeInsts_length hfirst
    refine ⟨first.bytes ++ pre, encoded, post, ?_, ?_, ?_⟩
    · rw [sizeBefore, ← Nat.add_assoc, ← hfirstLen]
      exact henc
    · rw [BinaryEncoding.append, hbytes]
      simp only [List.append_assoc]
    · rw [List.length_append, hfirstLen, hlen, sizeBefore]

/-! ## Positions of functions -/

/-- The predicted size of whole functions. -/
def funcsSize (funcs : List PlacedFunc) : Nat := (funcs.map PlacedFunc.codeSize).sum

theorem four_dvd_funcsSize (funcs : List PlacedFunc) : 4 ∣ funcsSize funcs := by
  induction funcs with
  | nil => exact Nat.dvd_zero 4
  | cons func rest ih =>
    rw [funcsSize, List.map_cons, List.sum_cons]
    exact Nat.dvd_add (four_dvd_blocksSize _) ih

/-- A function is encoded at the offset the sizes before it give. -/
theorem encodeFuncs_split {layout : Layout} {func : PlacedFunc} {after : List PlacedFunc}
    {before : List PlacedFunc} : ∀ {start : Nat} {es : List BinaryEncoding},
      encodeFuncs layout start (before ++ func :: after) = .ok es →
      ∃ pre encoded post,
        encodeBlocks (layout.refs (start + funcsSize before) func) (start + funcsSize before)
          func.blocks = .ok encoded ∧
        es = pre ++ encoded :: post ∧ pre.length = before.length ∧
        (pre.map BinaryEncoding.bytes).flatten.length = funcsSize before := by
  induction before with
  | nil =>
    intro start es h
    obtain ⟨first, hfirst, h⟩ := bind_eq_ok.mp h
    obtain ⟨others, -, h⟩ := bind_eq_ok.mp h
    cases h
    exact ⟨[], first, others, hfirst, rfl, rfl, rfl⟩
  | cons func' before ih =>
    intro start es h
    obtain ⟨first, hfirst, h⟩ := bind_eq_ok.mp h
    obtain ⟨others, hothers, h⟩ := bind_eq_ok.mp h
    cases h
    obtain ⟨pre, encoded, post, henc, hes, hlen, hbytes⟩ := ih hothers
    have hfirstLen : first.bytes.length = func'.codeSize := encodeBlocks_length hfirst
    have hsize : funcsSize (func' :: before) = func'.codeSize + funcsSize before := by
      rw [funcsSize, List.map_cons, List.sum_cons]
      rfl
    refine ⟨first :: pre, encoded, post, ?_, ?_, ?_, ?_⟩
    · rw [hsize, ← Nat.add_assoc, ← hfirstLen]
      exact henc
    · rw [hes, List.cons_append]
    · rw [List.length_cons, List.length_cons, hlen]
    · rw [List.map_cons, List.flatten_cons, List.length_append, hfirstLen, hbytes, hsize]

theorem encodeFuncs_length {layout : Layout} {funcs : List PlacedFunc} :
    ∀ {start : Nat} {es : List BinaryEncoding}, encodeFuncs layout start funcs = .ok es →
      (es.map BinaryEncoding.bytes).flatten.length = funcsSize funcs := by
  induction funcs with
  | nil =>
    intro start es h
    cases h
    rfl
  | cons func rest ih =>
    intro start es h
    obtain ⟨first, hfirst, h⟩ := bind_eq_ok.mp h
    obtain ⟨others, hothers, h⟩ := bind_eq_ok.mp h
    cases h
    have hfirstLen : first.bytes.length = func.codeSize := encodeBlocks_length hfirst
    rw [List.map_cons, List.flatten_cons, List.length_append, hfirstLen, ih hothers, funcsSize,
      funcsSize, List.map_cons, List.sum_cons]

/-- The first walk leaves the offset behind all functions. -/
theorem foldl_push_nextOffset (funcs : List PlacedFunc) (layout : Layout) :
    (funcs.foldl Layout.push layout).nextOffset = layout.nextOffset + funcsSize funcs := by
  induction funcs generalizing layout with
  | nil => rfl
  | cons func rest ih =>
    rw [List.foldl_cons, ih, funcsSize, funcsSize, List.map_cons, List.sum_cons, Layout.push,
      Nat.add_assoc]

theorem foldl_push_lookup {name : String} {funcs : List PlacedFunc} {layout : Layout}
    (h : name ∉ funcs.map PlacedFunc.name) :
    (funcs.foldl Layout.push layout).offsets.lookup name = layout.offsets.lookup name := by
  induction funcs generalizing layout with
  | nil => rfl
  | cons func rest ih =>
    rw [List.map_cons, List.mem_cons, not_or] at h
    rw [List.foldl_cons, ih h.2, Layout.push, List.lookup_cons, beq_eq_false_iff_ne.mpr h.1]

/-- The offset recorded for a function name is that of its last definition. -/
theorem layoutFuncs_lookup {before after : List PlacedFunc} {func : PlacedFunc}
    (h : func.name ∉ after.map PlacedFunc.name) :
    (layoutFuncs (before ++ func :: after)).offsets.lookup func.name =
      some (funcsSize before) := by
  have hnext : (before.foldl Layout.push {}).nextOffset = 0 + funcsSize before :=
    foldl_push_nextOffset before {}
  rw [layoutFuncs, List.foldl_append, List.foldl_cons, foldl_push_lookup h, Layout.push,
    List.lookup_cons_self, hnext, Nat.zero_add]

end Crabbit.Aarch64
