/-
  Crabbit.Aarch64.EncodeSound

  The encoded module does what its layout says: the emitted branches are read
  back by the processor and followed to the intended successor, literals are
  where the code expects them, and the offsets agree with the text section.
-/

import Crabbit.Aarch64.EncodeLayout

namespace Crabbit.Aarch64

open Crabbit.Lib

/-! ## Where a branch goes -/

namespace BranchWord

def target : BranchWord → Nat
  | .b target | .bCond _ target | .cbnz target => target

/-- Whether the word of a branch of `inst` is taken. -/
def taken (st : BranchState) (inst : Inst) : BranchWord → Bool
  | .b _ => true
  | .bCond cond _ => cond.holds st.flags
  | .cbnz _ =>
    match inst.number xreg .rn with
    | some rn => st.regs rn != 0
    | none => false

end BranchWord

/-- The block control arrives at after the words: the target of the first
    taken one, or the block that follows in the layout. -/
def arrives (st : BranchState) (inst : Inst) (next : Option Nat) :
    List BranchWord → Option Nat
  | [] => next
  | word :: words => if word.taken st inst then some word.target else arrives st inst next words

/-- The successor the instruction means to go to. -/
def Inst.intended (st : BranchState) (inst : Inst) : Option Nat :=
  match inst.opcode with
  | .b => inst.target
  | .bCond => do
    let cond ← inst.cond
    if cond.holds st.flags then inst.target else inst.notTaken
  | .cbnz => do
    let rn ← inst.number xreg .rn
    if st.regs rn ≠ 0 then inst.target else inst.notTaken
  | _ => none

/-- The words of a branch go to the intended successor, whichever block
    follows and whichever of them were left out or inverted for it. -/
theorem arrives_branchWords {next : Option Nat} {inst : Inst} {words : List BranchWord}
    (h : branchWords next inst = some words)
    (hrn : inst.opcode = .cbnz → (inst.number xreg .rn).isSome) (st : BranchState) :
    (inst.intended st).isSome ∧ arrives st inst next words = inst.intended st := by
  rw [branchWords] at h
  rw [Inst.intended]
  split at h
  · next hop =>
    obtain ⟨taken, htaken, h⟩ := Option.bind_eq_some_iff.mp h
    cases h
    rw [hop, htaken]
    refine ⟨rfl, ?_⟩
    by_cases hnext : some taken = next
    · rw [if_pos hnext, ← hnext]
      rfl
    · rw [if_neg hnext]
      rfl
  · next hop =>
    obtain ⟨taken, htaken, h⟩ := Option.bind_eq_some_iff.mp h
    obtain ⟨notTaken, hnot, h⟩ := Option.bind_eq_some_iff.mp h
    cases h
    obtain ⟨rn, hrn⟩ := Option.isSome_iff_exists.mp (hrn hop)
    have htake : ∀ t, (BranchWord.cbnz t).taken st inst = (st.regs rn != 0) := fun t => by
      rw [BranchWord.taken, hrn]
    rw [hop, hrn, htaken, hnot]
    by_cases hzero : st.regs rn = 0
    · have hfall : (st.regs rn != 0) = false := by rw [hzero]; rfl
      have hint : (do let rn ← some rn; if st.regs rn ≠ 0 then some taken else some notTaken) =
          some notTaken := if_neg (not_not.mpr hzero)
      rw [hint]
      refine ⟨rfl, ?_⟩
      by_cases hnext : some notTaken = next
      · rw [if_pos hnext, arrives, htake, hfall, ← hnext]
        rfl
      · rw [if_neg hnext, arrives, htake, hfall]
        rfl
    · have htaken' : (st.regs rn != 0) = true := bne_iff_ne.mpr hzero
      have hint : (do let rn ← some rn; if st.regs rn ≠ 0 then some taken else some notTaken) =
          some taken := if_pos hzero
      rw [hint]
      refine ⟨rfl, ?_⟩
      by_cases hnext : some notTaken = next
      · rw [if_pos hnext, arrives, htake, htaken']
        rfl
      · rw [if_neg hnext, arrives, htake, htaken']
        rfl
  · next hop =>
    obtain ⟨taken, htaken, h⟩ := Option.bind_eq_some_iff.mp h
    obtain ⟨notTaken, hnot, h⟩ := Option.bind_eq_some_iff.mp h
    obtain ⟨cond, hcond, h⟩ := Option.bind_eq_some_iff.mp h
    cases h
    rw [hop, hcond, htaken, hnot]
    have hint : (do let cond ← some cond
                    if cond.holds st.flags then some taken else some notTaken) =
        some (if cond.holds st.flags then taken else notTaken) := by
      show (if cond.holds st.flags then some taken else some notTaken) = _
      split <;> rfl
    rw [hint]
    refine ⟨rfl, ?_⟩
    have hinv := cond.holds_invert st.flags
    -- fall-through to the not-taken block, to the taken one under the inverted
    -- condition, or two words
    by_cases hnext : some notTaken = next
    · rw [if_pos hnext, arrives, BranchWord.taken, ← hnext]
      cases cond.holds st.flags <;> rfl
    · by_cases hnext' : some taken = next
      · rw [if_neg hnext, if_pos hnext', arrives, BranchWord.taken, hinv, ← hnext']
        cases cond.holds st.flags <;> rfl
      · rw [if_neg hnext, if_neg hnext', arrives, BranchWord.taken]
        cases cond.holds st.flags <;> rfl
  · cases h

/-! ## Reading the emitted words back -/

section Words

variable {offsets : List (Nat × Nat)} {inst : Inst}

/-- An emitted word decodes to a branch that is taken when the branch word
    is, over the distance to the recorded offset of its target. -/
theorem decodeBranch_of_encode {pc w : Nat} {word : BranchWord}
    (hoffsets : ∀ id o, offsets.lookup id = some o → 4 ∣ o) (hpc : 4 ∣ pc)
    (hrn : ∀ rn, inst.number xreg .rn = some rn → rn < 32)
    (h : encodeBranchWord offsets inst pc word = .ok w) :
    w < 2 ^ 32 ∧ ∃ branch target, decodeBranch w = some branch ∧
      offsets.lookup word.target = some target ∧
      (∀ st, branch.taken st = word.taken st inst) ∧ pc + branch.offset = (target : Int) := by
  cases word with
  | b t =>
    obtain ⟨target, htarget, h⟩ := bind_eq_ok.mp h
    obtain ⟨delta, hdelta, h⟩ := bind_eq_ok.mp h
    cases h
    have hlookup := orElse_eq_ok.mp htarget
    obtain ⟨hlt, hspan⟩ :=
      displacement_eq_ok (by decide) (by decide) (hoffsets t target hlookup) hpc hdelta
    obtain ⟨hword, hdecode⟩ := decodeBranch_b hlt
    refine ⟨hword, _, target, hdecode, hlookup, fun st => rfl, ?_⟩
    rw [Branch.offset, hspan]
    omega
  | bCond cond t =>
    obtain ⟨target, htarget, h⟩ := bind_eq_ok.mp h
    obtain ⟨delta, hdelta, h⟩ := bind_eq_ok.mp h
    cases h
    have hlookup := orElse_eq_ok.mp htarget
    obtain ⟨hlt, hspan⟩ :=
      displacement_eq_ok (by decide) (by decide) (hoffsets t target hlookup) hpc hdelta
    obtain ⟨hword, hdecode⟩ := decodeBranch_bCond cond hlt
    refine ⟨hword, _, target, hdecode, hlookup, fun st => rfl, ?_⟩
    rw [Branch.offset, hspan]
    omega
  | cbnz t =>
    obtain ⟨rn, hreg, h⟩ := bind_eq_ok.mp h
    obtain ⟨target, htarget, h⟩ := bind_eq_ok.mp h
    obtain ⟨delta, hdelta, h⟩ := bind_eq_ok.mp h
    cases h
    have hnumber := orElse_eq_ok.mp hreg
    have hlookup := orElse_eq_ok.mp htarget
    obtain ⟨hlt, hspan⟩ :=
      displacement_eq_ok (by decide) (by decide) (hoffsets t target hlookup) hpc hdelta
    obtain ⟨hword, hdecode⟩ := decodeBranch_cbnz hlt (hrn rn hnumber)
    refine ⟨hword, _, target, hdecode, hlookup, fun st => ?_, ?_⟩
    · rw [Branch.taken, BranchWord.taken, hnumber]
    · rw [Branch.offset, hspan]
      omega

/-- Following the emitted words leads to the recorded offset of the block
    control arrives at, when the block that follows is recorded behind them. -/
theorem follow_encodeWords {text : List UInt8} {next : Option Nat} {words : List BranchWord}
    (hoffsets : ∀ id o, offsets.lookup id = some o → 4 ∣ o)
    (hrn : ∀ rn, inst.number xreg .rn = some rn → rn < 32) (st : BranchState) {t : Nat} :
    ∀ {pc : Nat} {bytes : List UInt8}, 4 ∣ pc →
      encodeWords offsets inst pc words = .ok bytes →
      sliceAt text pc bytes.length = some bytes →
      (∀ b, next = some b → offsets.lookup b = some (pc + bytes.length)) →
      arrives st inst next words = some t →
      ∃ target, offsets.lookup t = some target ∧
        follow text st words.length pc = some (target : Int) := by
  induction words with
  | nil =>
    intro pc bytes _ h _ hnext harrives
    cases h
    exact ⟨pc, hnext t harrives, rfl⟩
  | cons word words ih =>
    intro pc bytes hpc h htext hnext harrives
    obtain ⟨w, hw, h⟩ := bind_eq_ok.mp h
    obtain ⟨rest, hrest, h⟩ := bind_eq_ok.mp h
    cases h
    obtain ⟨hlt, branch, target, hdecode, hlookup, htaken, hspan⟩ :=
      decodeBranch_of_encode hoffsets hpc hrn hw
    have hfetch : wordAt text pc = some w := by
      have hfirst : sliceAt text (pc + 0) (toLE 4 w).length = some (toLE 4 w) :=
        sliceAt_part (a := []) htext
      rw [Nat.add_zero, length_toLE] at hfirst
      rw [wordAt, hfirst, Option.map_some, ofLE_toLE_of_lt hlt]
    have hstep : follow text st (words.length + 1) pc =
        if branch.taken st then some (pc + branch.offset)
        else follow text st words.length (pc + 4) := by
      rw [follow, hfetch]
      show (decodeBranch w).bind _ = _
      rw [hdecode]
      rfl
    rw [List.length_cons, hstep, htaken]
    rw [arrives] at harrives
    by_cases htk : word.taken st inst = true
    · rw [if_pos htk] at harrives ⊢
      cases harrives
      exact ⟨target, hlookup, congrArg some hspan⟩
    · rw [if_neg htk] at harrives ⊢
      have hlen : (toLE 4 w).length = 4 := length_toLE 4 w
      apply ih (Nat.dvd_add hpc (Nat.dvd_refl 4)) hrest _ _ harrives
      · have htail : sliceAt text (pc + (toLE 4 w).length) rest.length = some rest :=
          sliceAt_part (c := []) (by rw [List.append_nil]; exact htext)
        rwa [hlen] at htail
      · intro b hb
        rw [hnext b hb, List.length_append, hlen, Nat.add_assoc]

end Words

/-- A target out of the reach of a `bits`-bit word displacement. -/
def OutOfReach (bits target pc : Nat) : Prop :=
  (target : Int) - pc < -2 ^ (bits + 1) ∨ 2 ^ (bits + 1) ≤ (target : Int) - pc

theorem displacement_outOfReach {bits target pc : Nat} {error : EncodeError} (hbits : 0 < bits)
    (htarget : 4 ∣ target) (hpc : 4 ∣ pc) (h : OutOfReach bits target pc) :
    displacement bits target pc error = .error error := by
  apply displacement_eq_error
  intro hfits
  have hdvd : (4 : Int) ∣ (target : Int) - pc := by omega
  have hspan : 4 * deltaWords target pc = (target : Int) - pc := Int.mul_tdiv_cancel' hdvd
  have hpow : (2 : Int) ^ (bits + 1) = 4 * 2 ^ (bits - 1) := by
    obtain ⟨k, rfl⟩ := Nat.exists_eq_add_of_lt hbits
    rw [Nat.zero_add, Nat.add_sub_cancel]
    ring
  rw [OutOfReach, hpow, ← hspan] at h
  omega

/-! ## Literals -/

/-- The literals of a module's instructions, in the order the pass meets them. -/
def moduleLiterals (funcs : List PlacedFunc) : List (String × List UInt8) :=
  (funcs.flatMap fun func => func.blocks.flatMap PlacedBlock.insts).filterMap literalForInst

/-- The labels of a literal map, in order. -/
def Sorted (literals : List (String × List UInt8)) : Prop :=
  (literals.map Prod.fst).Pairwise (· < ·)

theorem mem_orInsert {label k : String} {bytes : List UInt8}
    {literals : List (String × List UInt8)}
    (h : k ∈ (orInsert label bytes literals).map Prod.fst) :
    k = label ∨ k ∈ literals.map Prod.fst := by
  induction literals with
  | nil => exact List.mem_cons.mp h
  | cons first rest ih =>
    obtain ⟨label', bytes'⟩ := first
    rw [orInsert] at h
    split at h
    · exact List.mem_cons.mp h
    · split at h
      · exact Or.inr h
      · rcases List.mem_cons.mp h with hk | hk
        · exact Or.inr (hk ▸ List.mem_cons_self)
        · exact (ih hk).imp id (List.mem_cons_of_mem _)

theorem Sorted.orInsert (label : String) (bytes : List UInt8)
    {literals : List (String × List UInt8)} (h : Sorted literals) :
    Sorted (orInsert label bytes literals) := by
  induction literals with
  | nil => exact List.pairwise_singleton _ _
  | cons first rest ih =>
    obtain ⟨label', bytes'⟩ := first
    obtain ⟨hfirst, hrest⟩ := List.pairwise_cons.mp h
    rw [Crabbit.Aarch64.orInsert]
    split
    · next hlt =>
      refine List.pairwise_cons.mpr ⟨fun k hk => ?_, h⟩
      rcases List.mem_cons.mp hk with rfl | hk
      · exact hlt
      · exact lt_trans hlt (hfirst k hk)
    · next hnlt =>
      split
      · exact h
      · next hne =>
        have hgt : label' < label := lt_of_le_of_ne (not_lt.mp hnlt) (Ne.symm hne)
        refine List.pairwise_cons.mpr ⟨fun k hk => ?_, ih hrest⟩
        rcases mem_orInsert hk with rfl | hk
        · exact hgt
        · exact hfirst k hk

theorem lookup_eq_none_of_notMem {β : Type} {k : String} {l : List (String × β)}
    (h : k ∉ l.map Prod.fst) : l.lookup k = none := by
  induction l with
  | nil => rfl
  | cons first rest ih =>
    rw [List.map_cons, List.mem_cons, not_or] at h
    rw [List.lookup_cons, beq_eq_false_iff_ne.mpr h.1]
    exact ih h.2

/-- The map keeps the first bytes given for a label. -/
theorem lookup_orInsert {label k : String} {bytes : List UInt8}
    {literals : List (String × List UInt8)} (h : Sorted literals) :
    (orInsert label bytes literals).lookup k =
      (literals.lookup k).or ([(label, bytes)].lookup k) := by
  induction literals with
  | nil => rfl
  | cons first rest ih =>
    obtain ⟨label', bytes'⟩ := first
    obtain ⟨hfirst, hrest⟩ := List.pairwise_cons.mp h
    rw [orInsert]
    split
    · next hlt =>
      by_cases hk : k = label
      · subst hk
        have hnone : ((label', bytes') :: rest).lookup k = none := by
          apply lookup_eq_none_of_notMem
          intro hmem
          rcases List.mem_cons.mp hmem with heq | hmem
          · exact absurd hlt (heq ▸ lt_irrefl k)
          · exact absurd (lt_trans hlt (hfirst k hmem)) (lt_irrefl k)
        rw [hnone, List.lookup_cons_self, List.lookup_cons_self]
        rfl
      · rw [List.lookup_cons, beq_eq_false_iff_ne.mpr hk]
        have hnone : [(label, bytes)].lookup k = none := by
          rw [List.lookup_cons, beq_eq_false_iff_ne.mpr hk]
          rfl
        rw [hnone, Option.or_none]
    · split
      · next heq =>
        subst heq
        by_cases hk : k = label
        · subst hk
          rw [List.lookup_cons_self]
          rfl
        · have hnone : [(label, bytes)].lookup k = none := by
            rw [List.lookup_cons, beq_eq_false_iff_ne.mpr hk]
            rfl
          rw [hnone, Option.or_none]
      · rw [List.lookup_cons, List.lookup_cons]
        split
        · rfl
        · exact ih hrest

theorem collectInstLiterals_spec (insts : List MachineInst) :
    ∀ {literals : List (String × List UInt8)}, Sorted literals →
      Sorted (collectInstLiterals literals insts) ∧
      ∀ k, (collectInstLiterals literals insts).lookup k =
        (literals.lookup k).or ((insts.filterMap literalForInst).lookup k) := by
  induction insts with
  | nil =>
    intro literals h
    exact ⟨h, fun k => (Option.or_none).symm⟩
  | cons inst rest ih =>
    intro literals h
    rw [collectInstLiterals, List.foldl_cons, List.filterMap_cons]
    cases hlit : literalForInst inst with
    | none => exact ih h
    | some literal =>
      obtain ⟨label, bytes⟩ := literal
      obtain ⟨hsorted, hlookup⟩ := ih (h.orInsert label bytes)
      refine ⟨hsorted, fun k => ?_⟩
      have hk := hlookup k
      rw [collectInstLiterals] at hk
      rw [hk, lookup_orInsert h, Option.or_assoc, ← List.lookup_append]
      rfl

/-- The literal map of the module gives every label its first bytes. -/
theorem lookup_layoutFuncs_literals (funcs : List PlacedFunc) (k : String) :
    (layoutFuncs funcs).literals.lookup k = (moduleLiterals funcs).lookup k := by
  have hfold : ∀ (funcs : List PlacedFunc) (layout : Layout), Sorted layout.literals →
      Sorted (funcs.foldl Layout.push layout).literals ∧
      (funcs.foldl Layout.push layout).literals.lookup k =
        (layout.literals.lookup k).or ((moduleLiterals funcs).lookup k) := by
    intro funcs
    induction funcs with
    | nil => exact fun layout h => ⟨h, (Option.or_none).symm⟩
    | cons func rest ih =>
      intro layout h
      obtain ⟨hsorted, hlookup⟩ :=
        collectInstLiterals_spec (func.blocks.flatMap PlacedBlock.insts) h
      obtain ⟨hsorted', hlookup'⟩ := ih (layout.push func) hsorted
      refine ⟨hsorted', ?_⟩
      rw [List.foldl_cons, hlookup', Layout.push, collectLiterals, hlookup, Option.or_assoc,
        ← List.lookup_append, moduleLiterals, moduleLiterals, List.flatMap_cons,
        List.filterMap_append]
  exact (hfold funcs {} List.Pairwise.nil).2

/-- A label of the map is recorded where its bytes are. -/
theorem lookup_literalOffsets {label : String} {bytes : List UInt8}
    {literals : List (String × List UInt8)} : ∀ (offset : Nat),
      literals.lookup label = some bytes →
      ∃ pre post, literals.flatMap Prod.snd = pre ++ bytes ++ post ∧
        (literalOffsets offset literals).lookup label = some (offset + pre.length) := by
  induction literals with
  | nil =>
    intro offset h
    cases h
  | cons first rest ih =>
    intro offset h
    obtain ⟨label', bytes'⟩ := first
    rw [List.lookup_cons] at h
    rw [literalOffsets, List.lookup_cons, List.flatMap_cons]
    split at h
    · cases h
      exact ⟨[], rest.flatMap Prod.snd, rfl, rfl⟩
    · obtain ⟨pre, post, hbytes, hlookup⟩ := ih (offset + bytes'.length) h
      refine ⟨bytes' ++ pre, post, ?_, ?_⟩
      · rw [hbytes]
        simp only [List.append_assoc]
      · rw [List.length_append, ← Nat.add_assoc]
        exact hlookup

/-! ## The module -/

/-- One instruction at its address: the bytes there are its encoding, as many
    as predicted; a branch goes to the recorded offset of the successor it
    means; a literal it refers to is at its recorded offset, with the bytes
    the module first gave for the label. -/
structure InstLaidOut (funcs : List PlacedFunc) (text : List UInt8)
    (refs : BinarySerializationContext) (next : Option Nat) (pc : Nat) (inst : MachineInst) :
    Prop where
  bytes : ∃ e, encodeInst refs next pc inst = .ok e ∧
    e.bytes.length = byteLen next inst.toInst ∧ sliceAt text pc e.bytes.length = some e.bytes
  branch : inst.isBranch = true → ∀ st, ∃ t target, inst.intended st = some t ∧
    refs.blockOffsets.lookup t = some target ∧
    follow text st (byteLen next inst.toInst / 4) pc = some (target : Int)
  literal : ∀ label bytes, literalForInst inst = some (label, bytes) → ∃ first offset,
    (moduleLiterals funcs).lookup label = some first ∧
    refs.literalOffsets.lookup label = some offset ∧
    sliceAt text offset first.length = some first

/-- A function at its address: the bytes of every block, which are those of
    its instructions one after another, are at its recorded offset. -/
structure FuncLaidOut (funcs : List PlacedFunc) (text : List UInt8) (start : Nat)
    (func : PlacedFunc) : Prop where
  block : ∀ before block after, func.blocks = before ++ block :: after → ∃ offset e,
    (blockOffsets start func.blocks).lookup block.id = some offset ∧
    encodeInsts ((layoutFuncs funcs).refs start func) (nextBlock after) offset block.insts =
      .ok e ∧
    e.bytes.length = instsSize (nextBlock after) block.insts ∧
    sliceAt text offset e.bytes.length = some e.bytes ∧
    ∀ done inst rest, block.insts = done ++ inst :: rest →
      InstLaidOut funcs text ((layoutFuncs funcs).refs start func) (nextBlock after)
        (offset + instsSize (nextBlock after) done) inst

/-- The module: every function is in the text section at the offset recorded
    for its name, which is that of the last function of the name. -/
structure ModuleLaidOut (funcs : List PlacedFunc) (encoded : EncodedModule) : Prop where
  func : ∀ before func after, funcs = before ++ func :: after → ∃ start bytes,
    (func.name ∉ after.map PlacedFunc.name →
      (layoutFuncs funcs).offsets.lookup func.name = some start) ∧
    encoded.functions[before.length]? = some bytes ∧ bytes.length = func.codeSize ∧
    sliceAt encoded.text start bytes.length = some bytes ∧
    FuncLaidOut funcs encoded.text start func

/-- A branch ends its block. -/
theorem PlacedBlock.eq_nil_of_isBranch (block : PlacedBlock) {done rest : List MachineInst}
    {inst : MachineInst} (h : block.insts = done ++ inst :: rest)
    (hbranch : inst.isBranch = true) : rest = [] := by
  by_contra hne
  have hmem : inst ∈ block.insts.dropLast := by
    rw [h, List.dropLast_append_of_ne_nil (List.cons_ne_nil _ _), List.dropLast_cons_of_ne_nil hne]
    exact List.mem_append_right _ List.mem_cons_self
  have hterm := block.terminator_last inst hmem
  rw [Inst.isBranch] at hbranch
  rw [Inst.isTerminator] at hterm
  split at hbranch <;> simp_all only [reduceCtorEq]

/-- A cbnz that was encoded names a register. -/
theorem isSome_number_of_encodeBranch {offsets : List (Nat × Nat)} {next : Option Nat}
    {inst : Inst} {pc : Nat} {e : BinaryEncoding}
    (h : encodeBranch offsets next inst pc = .ok e) (hop : inst.opcode = .cbnz) :
    (inst.number xreg .rn).isSome := by
  obtain ⟨words, hwords, h⟩ := bind_eq_ok.mp h
  obtain ⟨bytes, hbytes, h⟩ := bind_eq_ok.mp h
  have hwords := orElse_eq_ok.mp hwords
  rw [branchWords, hop] at hwords
  obtain ⟨taken, -, hwords⟩ := Option.bind_eq_some_iff.mp hwords
  obtain ⟨notTaken, -, hwords⟩ := Option.bind_eq_some_iff.mp hwords
  -- the first word is the cbnz, whether or not a `b` follows it
  have hfirst : ∃ rest, words = .cbnz taken :: rest := by
    cases hwords
    split
    · exact ⟨[], rfl⟩
    · exact ⟨[.b notTaken], rfl⟩
  obtain ⟨rest, rfl⟩ := hfirst
  obtain ⟨w, hw, -⟩ := bind_eq_ok.mp hbytes
  obtain ⟨rn, hrn, -⟩ := bind_eq_ok.mp hw
  rw [orElse_eq_ok.mp hrn]
  rfl

/-- The encoder of a branch is `encode_branch`. -/
theorem encodeInst_of_isBranch {refs : BinarySerializationContext} {next : Option Nat} {pc : Nat}
    {inst : MachineInst} (h : inst.isBranch = true) :
    encodeInst refs next pc inst = encodeBranch refs.blockOffsets next inst.toInst pc := by
  rw [Inst.isBranch] at h
  rw [encodeInst]
  split at h <;> simp_all only [reduceCtorEq]

/-- A branch whose bytes are in the text goes to the recorded offset of the
    successor it means, when the next block is recorded behind it. -/
theorem follow_encodeBranch {offsets : List (Nat × Nat)} {next : Option Nat} {inst : MachineInst}
    {pc : Nat} {text : List UInt8} {e : BinaryEncoding}
    (hoffsets : ∀ id o, offsets.lookup id = some o → 4 ∣ o) (hpc : 4 ∣ pc)
    (h : encodeBranch offsets next inst.toInst pc = .ok e)
    (htext : sliceAt text pc e.bytes.length = some e.bytes)
    (hnext : ∀ b, next = some b → offsets.lookup b = some (pc + e.bytes.length))
    (st : BranchState) :
    ∃ t target, inst.intended st = some t ∧ offsets.lookup t = some target ∧
      follow text st (byteLen next inst.toInst / 4) pc = some (target : Int) := by
  have hnumber := isSome_number_of_encodeBranch h
  obtain ⟨words, hwords, h⟩ := bind_eq_ok.mp h
  obtain ⟨bytes, hbytes, h⟩ := bind_eq_ok.mp h
  cases h
  have hwords := orElse_eq_ok.mp hwords
  obtain ⟨hsome, harrives⟩ := arrives_branchWords hwords hnumber st
  obtain ⟨t, ht⟩ := Option.isSome_iff_exists.mp hsome
  rw [ht] at harrives
  obtain ⟨target, hlookup, hfollow⟩ := follow_encodeWords hoffsets (inst.number_lt .rn) st hpc
    hbytes htext hnext harrives
  have hcount : byteLen next inst.toInst / 4 = words.length := by
    rw [byteLen, hwords]
    exact Nat.mul_div_cancel_left _ (by omega)
  exact ⟨t, target, ht, hlookup, by rw [hcount]; exact hfollow⟩

section Module

variable {funcs : List PlacedFunc} {encoded : EncodedModule}

/-- Every literal of the module is found at its recorded offset. -/
theorem literal_laidOut (h : encodeModule funcs = .ok encoded) {label : String}
    {bytes : List UInt8} (hlit : (label, bytes) ∈ moduleLiterals funcs) :
    ∃ first offset, (moduleLiterals funcs).lookup label = some first ∧
      (literalOffsets (layoutFuncs funcs).nextOffset (layoutFuncs funcs).literals).lookup label =
        some offset ∧
      sliceAt encoded.text offset first.length = some first := by
  obtain ⟨es, hes, h⟩ := bind_eq_ok.mp h
  cases h
  obtain ⟨first, hfirst⟩ : ∃ first, (moduleLiterals funcs).lookup label = some first := by
    cases hnone : (moduleLiterals funcs).lookup label with
    | some first => exact ⟨first, rfl⟩
    | none =>
      have := List.lookup_eq_none_iff.mp hnone (label, bytes) hlit
      exact absurd this (by simp)
  have hmap : (layoutFuncs funcs).literals.lookup label = some first := by
    rw [lookup_layoutFuncs_literals, hfirst]
  obtain ⟨pre, post, hbytes, hlookup⟩ :=
    lookup_literalOffsets (layoutFuncs funcs).nextOffset hmap
  refine ⟨first, _, hfirst, hlookup, ?_⟩
  have hnext : (layoutFuncs funcs).nextOffset =
      (es.map BinaryEncoding.bytes).flatten.length := by
    rw [encodeFuncs_length hes, layoutFuncs, foldl_push_nextOffset, Nat.zero_add]
  rw [sliceAt_eq_some_iff]
  refine ⟨(es.map BinaryEncoding.bytes).flatten ++ pre, post, ?_, ?_, rfl⟩
  · rw [EncodedModule.text, hbytes]
    simp only [List.append_assoc]
  · rw [List.length_append, hnext]

/-- A function whose bytes are in the text is laid out there. -/
theorem func_laidOut (h : encodeModule funcs = .ok encoded) {func : PlacedFunc}
    (hfunc : func ∈ funcs) {start : Nat} {e : BinaryEncoding} (hstart : 4 ∣ start)
    (henc : encodeBlocks ((layoutFuncs funcs).refs start func) start func.blocks = .ok e)
    (htext : sliceAt encoded.text start e.bytes.length = some e.bytes) :
    FuncLaidOut funcs encoded.text start func where
  block := by
    intro before block after hblocks
    have hnodup : ((before ++ block :: after).map PlacedBlock.id).Nodup := by
      rw [← hblocks]
      exact func.nodup
    have hoffsets : ∀ id o, (blockOffsets start func.blocks).lookup id = some o → 4 ∣ o :=
      fun id o => four_dvd_of_lookup hstart
    have henc' := henc
    rw [hblocks] at henc'
    obtain ⟨pre, eb, post, hinsts, hbytes, hpre⟩ := encodeBlocks_split henc'
    have hebLen := encodeInsts_length hinsts
    have hoffset : 4 ∣ start + sizeBefore before (block :: after) :=
      Nat.dvd_add hstart (four_dvd_sizeBefore _ _)
    have hblock : sliceAt encoded.text (start + sizeBefore before (block :: after))
        eb.bytes.length = some eb.bytes := by
      rw [← hpre]
      exact sliceAt_part (hbytes ▸ htext)
    refine ⟨start + sizeBefore before (block :: after), eb, ?_, hinsts, hebLen, hblock, ?_⟩
    · rw [hblocks]
      exact lookup_blockOffsets hnodup
    intro done inst rest hinst
    have hinsts' := hinsts
    rw [hinst] at hinsts'
    obtain ⟨ipre, ei, ipost, hei, hib, hip⟩ := encodeInsts_split hinsts'
    have hpc : 4 ∣ start + sizeBefore before (block :: after) +
        instsSize (nextBlock after) done := Nat.dvd_add hoffset (four_dvd_instsSize _ _)
    have hslice : sliceAt encoded.text (start + sizeBefore before (block :: after) +
        instsSize (nextBlock after) done) ei.bytes.length = some ei.bytes := by
      rw [← hip]
      exact sliceAt_part (hib ▸ hblock)
    have heiLen := encodeInst_length hei
    constructor
    · exact ⟨ei, hei, heiLen, hslice⟩
    · intro hbranch st
      rw [encodeInst_of_isBranch hbranch] at hei
      apply follow_encodeBranch hoffsets hpc hei hslice _ st
      -- the branch is the last of its block, so the next block begins behind it
      intro b hb
      obtain rfl := block.eq_nil_of_isBranch hinst hbranch
      cases after with
      | nil => cases hb
      | cons block' after =>
        cases hb
        have hsplit : before ++ block :: block' :: after =
            (before ++ [block]) ++ block' :: after := by
          rw [List.append_assoc, List.singleton_append]
        have hsize : instsSize (nextBlock (block' :: after)) block.insts =
            instsSize (nextBlock (block' :: after)) done + ei.bytes.length := by
          rw [hinst, instsSize_append, instsSize_cons, heiLen]
          rfl
        show (blockOffsets start func.blocks).lookup block'.id = _
        rw [hblocks, hsplit, lookup_blockOffsets (hsplit ▸ hnodup), sizeBefore_snoc, hsize]
        simp only [Nat.add_assoc]
    · intro label bytes hlit
      have hmem : (label, bytes) ∈ moduleLiterals funcs := by
        apply List.mem_filterMap.mpr
        refine ⟨inst, ?_, hlit⟩
        apply List.mem_flatMap.mpr
        refine ⟨func, hfunc, List.mem_flatMap.mpr ⟨block, ?_, ?_⟩⟩
        · rw [hblocks]
          exact List.mem_append_right _ List.mem_cons_self
        · rw [hinst]
          exact List.mem_append_right _ List.mem_cons_self
      exact literal_laidOut h hmem

/-- The layout the pass predicts is the layout of what it emits: every
    function, block, literal and instruction of an encoded module is where it
    is recorded, with the predicted length, and every branch leads to its
    successor.  The length is right for any single instruction as well, and a
    branch target out of reach is an error. -/
theorem encodeModule_laidOut (h : encodeModule funcs = .ok encoded) :
    ModuleLaidOut funcs encoded ∧
    (∀ refs next pc inst e, encodeInst refs next pc inst = .ok e →
      e.bytes.length = byteLen next inst.toInst) ∧
    (∀ target pc, 4 ∣ target → 4 ∣ pc → OutOfReach 26 target pc →
      encodeB target pc = .error .bRange) ∧
    (∀ target pc, 4 ∣ target → 4 ∣ pc → OutOfReach 19 target pc →
      (∀ cond, encodeBCond cond target pc = .error .bCondRange) ∧
      ∀ rn, encodeCbnz rn target pc = .error .cbnzRange) := by
  refine ⟨⟨?_⟩, fun refs next pc inst e => encodeInst_length, ?_, ?_⟩
  · intro before func after hfuncs
    obtain ⟨es, hes, hencoded⟩ := bind_eq_ok.mp h
    rw [hfuncs] at hes
    obtain ⟨pre, e, post, he, hsplit, hlen, hbytes⟩ := encodeFuncs_split hes
    rw [Nat.zero_add, ← hfuncs] at he
    have htext : sliceAt encoded.text (funcsSize before) e.bytes.length = some e.bytes := by
      cases hencoded
      rw [sliceAt_eq_some_iff]
      refine ⟨(pre.map BinaryEncoding.bytes).flatten,
        (post.map BinaryEncoding.bytes).flatten ++ (layoutFuncs funcs).literals.flatMap Prod.snd,
        ?_, hbytes, rfl⟩
      rw [EncodedModule.text, hsplit, List.map_append, List.map_cons, List.flatten_append,
        List.flatten_cons]
      simp only [List.append_assoc]
    refine ⟨funcsSize before, e.bytes, ?_, ?_, encodeBlocks_length he, htext, ?_⟩
    · intro hname
      rw [hfuncs]
      exact layoutFuncs_lookup hname
    · cases hencoded
      rw [hsplit, List.map_append, List.map_cons, List.getElem?_append_right (by simp [hlen]),
        List.length_map, hlen, Nat.sub_self]
      rfl
    · exact func_laidOut h (hfuncs ▸ List.mem_append_right _ List.mem_cons_self)
        (four_dvd_funcsSize before) he htext
  · intro target pc htarget hpc hout
    rw [encodeB, displacement_outOfReach (by decide) htarget hpc hout]
    rfl
  · intro target pc htarget hpc hout
    constructor
    · intro cond
      rw [encodeBCond, displacement_outOfReach (by decide) htarget hpc hout]
      rfl
    · intro rn
      rw [encodeCbnz, displacement_outOfReach (by decide) htarget hpc hout]
      rfl

end Module

/-- An instruction whose general-purpose registers are in range. -/
def Inst.checked (inst : Inst)
    (h : ∀ key ∈ [RegKey.rd, .rn, .rm], ∀ n ∈ inst.number xreg key, n < 32 := by decide) :
    MachineInst where
  toInst := inst
  number_lt key n hn := h key (by cases key <;> decide) n hn

/-- `cmp x0, x1; b.lt 2 else 1`, then `b 2`, then `ret`: in this order the
    first branch takes one word and the second none. -/
def branchOverFunc : PlacedFunc where
  name := "f"
  blocks := [
    ⟨0, [(Inst.cmp (.gpr 0) (.gpr 1)).checked,
      ({ opcode := .bCond, cond := some .lt, succs := [2, 1] } : Inst).checked], by decide⟩,
    ⟨1, [(Inst.b 2).checked], by decide⟩,
    ⟨2, [Inst.ret.checked], by decide⟩]
  nodup := by decide

theorem encodeModule_laidOut_branchOver :
    ModuleLaidOut [branchOverFunc]
      ⟨[[31, 0, 1, 235, 43, 0, 0, 84, 192, 3, 95, 214]], [], []⟩ :=
  (encodeModule_laidOut (by rfl)).1

end Crabbit.Aarch64
