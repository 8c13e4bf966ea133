/-
  Crabbit.Aarch64.ObjectSymbols

  What the relocations of an object refer to.  Each symbol of a module has a
  true place, given by the sizes of what stands before it; the collected parts
  resolve a reference to it exactly when its definition got a symbol.
-/

import Crabbit.Aarch64.EncodeSound
import Crabbit.Aarch64.ObjectParts

namespace Crabbit.Aarch64

open Crabbit.Lib

/-! ## Where things are -/

inductive Place where
  | text
  | data (kind : SectionKind)
  deriving DecidableEq

/-- The encoded function an item is. -/
def ModuleItem.func? : ModuleItem → Option (String × LinkageAttr × List UInt8)
  | .func name linkage encoded => some (name, linkage, encoded)
  | .global _ => none

/-- The data global of a section an item is. -/
def ModuleItem.data? (kind : SectionKind) : ModuleItem → Option (String × DataAttr)
  | .func _ _ _ => none
  | .global g =>
    match g.init with
    | .data init => if init.sectionKind g.threadLocal = kind then some (g.name, init) else none
    | _ => none

/-- The encoded functions of the items, in order. -/
def funcsOf (items : List ModuleItem) : List (String × LinkageAttr × List UInt8) :=
  items.filterMap ModuleItem.func?

/-- The data globals of a section, in order. -/
def dataOf (kind : SectionKind) (items : List ModuleItem) : List (String × DataAttr) :=
  items.filterMap (ModuleItem.data? kind)

theorem funcsOf_cons (item : ModuleItem) (rest : List ModuleItem) :
    funcsOf (item :: rest) = item.func?.toList ++ funcsOf rest := by
  rw [funcsOf, List.filterMap_cons]
  cases item <;> rfl

theorem funcsOf_append (before after : List ModuleItem) :
    funcsOf (before ++ after) = funcsOf before ++ funcsOf after := List.filterMap_append

theorem dataOf_cons (kind : SectionKind) (item : ModuleItem) (rest : List ModuleItem) :
    dataOf kind (item :: rest) = (item.data? kind).toList ++ dataOf kind rest := by
  rw [dataOf, List.filterMap_cons]
  cases item.data? kind <;> rfl

theorem dataOf_append (kind : SectionKind) (before after : List ModuleItem) :
    dataOf kind (before ++ after) = dataOf kind before ++ dataOf kind after :=
  List.filterMap_append

/-- The size of encoded functions. -/
def textSize (funcs : List (String × LinkageAttr × List UInt8)) : Nat :=
  (funcs.map fun func => func.2.2.length).sum

/-- The end of a data section of the given size after more initializers. -/
def sectionEnd : Nat → List (String × DataAttr) → Nat
  | size, [] => size
  | size, (_, init) :: rest =>
    sectionEnd (nextMultipleOf size init.alignment + init.bytes.length) rest

namespace ObjectModule

variable (m : ObjectModule)

/-- The definition of a name is at an offset of a place: behind the functions
    before it, or at the next multiple of its alignment behind the data before
    it in its section. -/
inductive DefinesAt : String → Place → Nat → Prop
  | func {before after : List ModuleItem} {name : String} {linkage : LinkageAttr}
      {encoded : List UInt8} (h : m.items = before ++ .func name linkage encoded :: after) :
      DefinesAt name .text (textSize (funcsOf before))
  | global {before after : List ModuleItem} {g : Global} {init : DataAttr}
      (h : m.items = before ++ .global g :: after) (hinit : g.init = .data init) :
      DefinesAt g.name (.data (init.sectionKind g.threadLocal))
        (nextMultipleOf (sectionEnd 0 (dataOf (init.sectionKind g.threadLocal) before))
          init.alignment)

/-- The module defines the name: a function, or a global with an initializer. -/
def Defines (name : String) : Prop :=
  (∃ linkage encoded, .func name linkage encoded ∈ m.items) ∨
    ∃ g, .global g ∈ m.items ∧ g.name = name ∧ g.init ≠ .absent

/-- The definition gets a symbol: an exported function, or a data global. -/
def Visible (name : String) : Prop :=
  (∃ linkage encoded, .func name linkage encoded ∈ m.items ∧
    (linkage = .external ∨ linkage = .weak)) ∨
    ∃ g init, .global g ∈ m.items ∧ g.name = name ∧ g.init = .data init

/-- A code fixup or a data relocation names the symbol. -/
def References (name : String) : Prop :=
  (∃ fixup ∈ m.fixups, fixup.symbol = name) ∨
    ∃ g init reloc, .global g ∈ m.items ∧ g.init = .data init ∧ reloc ∈ init.relocs ∧
      reloc.symbol = name

end ObjectModule

/-- The symbol-table entry a relocation refers to. -/
inductive SymbolEntry where
  | undefined
  | defined (place : Place) (offset : Nat)
  deriving DecidableEq

namespace ObjectParts

/-- The entry of a name among the symbols of a data section. -/
def dataEntry (parts : ObjectParts) (name : String) (kind : SectionKind) : Option SymbolEntry := do
  let sec ← parts.sections kind
  let symbol ← sec.symbols.find? fun symbol => symbol.name == name
  return .defined (.data kind) symbol.offset

/-- The first entry of a name: the text and undefined symbols come before
    those of the data sections. -/
def entry (parts : ObjectParts) (name : String) : Option SymbolEntry :=
  match parts.symbols.find? fun symbol => symbol.name == name with
  | some symbol => some (if symbol.defined then .defined .text symbol.offset else .undefined)
  | none => SectionKind.all.findSome? (parts.dataEntry name)

end ObjectParts

theorem symbolName_inj {os : TargetOs} {a b : String} :
    os.symbolName a = os.symbolName b ↔ a = b := by
  constructor
  · intro h
    cases os with
    | linux => exact h
    | darwin => exact String.append_right_inj _ |>.mp h
  · exact congrArg _

/-- An element of a filtered list with what stands around it comes from an
    element of the list with what stands around it. -/
theorem exists_split_of_filterMap {α β : Type} {f : α → Option β} {l : List α}
    {before after : List β} {d : β} (h : l.filterMap f = before ++ d :: after) :
    ∃ l₁ x l₂, l = l₁ ++ x :: l₂ ∧ f x = some d ∧ l₁.filterMap f = before ∧
      l₂.filterMap f = after := by
  obtain ⟨l₁, l', rfl, hbefore, hrest⟩ := List.filterMap_eq_append_iff.mp h
  obtain ⟨skipped, x, l₂, rfl, hskipped, hx, hafter⟩ := List.filterMap_eq_cons_iff.mp hrest
  refine ⟨l₁ ++ skipped, x, l₂, ?_, hx, ?_, hafter⟩
  · rw [List.append_assoc]
  · rw [List.filterMap_append, hbefore, List.filterMap_eq_nil_iff.mpr hskipped, List.append_nil]

/-! ## One data section -/

section DataSections

variable {os : TargetOs}

/-- The initializers of a section appended one after another. -/
def appendAll (os : TargetOs) (sec : DataSection) (data : List (String × DataAttr)) :
    DataSection :=
  data.foldl (fun sec d => sec.appendGlobal (os.symbolName d.1) d.2 os) sec

theorem alignment_pos (init : DataAttr) : 0 < init.alignment := Nat.le_max_right _ _

theorem appendGlobal_length (sec : DataSection) (name : String) (init : DataAttr) :
    (sec.appendGlobal name init os).bytes.length =
      nextMultipleOf sec.bytes.length init.alignment + init.bytes.length := by
  have hle : sec.bytes.length ≤ nextMultipleOf sec.bytes.length init.alignment :=
    le_nextMultipleOf (alignment_pos init) _
  rw [DataSection.appendGlobal, DataSection.place]
  simp only [List.length_append, List.length_replicate]
  omega

theorem appendAll_length (os : TargetOs) (data : List (String × DataAttr)) (sec : DataSection) :
    (appendAll os sec data).bytes.length = sectionEnd sec.bytes.length data := by
  induction data generalizing sec with
  | nil => rfl
  | cons d rest ih =>
    rw [appendAll, List.foldl_cons, ← appendAll, ih, appendGlobal_length]
    rfl

/-- Appending only extends the bytes. -/
theorem exists_bytes_appendAll (os : TargetOs) (data : List (String × DataAttr)) (sec : DataSection) :
    ∃ more, (appendAll os sec data).bytes = sec.bytes ++ more := by
  induction data generalizing sec with
  | nil => exact ⟨[], (List.append_nil _).symm⟩
  | cons d rest ih =>
    obtain ⟨more, hmore⟩ := ih (sec.appendGlobal (os.symbolName d.1) d.2 os)
    refine ⟨List.replicate (sec.place d.2.alignment - sec.bytes.length) 0 ++ d.2.bytes ++ more, ?_⟩
    rw [appendAll, List.foldl_cons, ← appendAll, hmore, DataSection.appendGlobal]
    simp only [List.append_assoc]

/-- A symbol of the section is that of one of its initializers, at its place. -/
theorem mem_symbols_appendAll {data : List (String × DataAttr)} {sec : DataSection}
    {s : DataSymbol} :
    s ∈ (appendAll os sec data).symbols ↔ s ∈ sec.symbols ∨
      ∃ before d after, data = before ++ d :: after ∧
        s = ⟨os.symbolName d.1,
          nextMultipleOf (sectionEnd sec.bytes.length before) d.2.alignment, d.2.bytes.length⟩ := by
  induction data generalizing sec with
  | nil =>
    constructor
    · exact Or.inl
    · rintro (h | ⟨before, d, after, h, -⟩)
      · exact h
      · exact absurd h.symm (by simp)
  | cons d rest ih =>
    rw [appendAll, List.foldl_cons, ← appendAll, ih, appendGlobal_length, DataSection.appendGlobal,
      List.mem_append, List.mem_singleton, or_assoc]
    apply or_congr_right
    constructor
    · rintro (h | ⟨before, d', after, rfl, h⟩)
      · exact ⟨[], d, rest, rfl, h⟩
      · exact ⟨d :: before, d', after, rfl, h⟩
    · rintro ⟨before, d', after, h, hs⟩
      cases before with
      | nil =>
        cases h
        exact Or.inl hs
      | cons d'' before =>
        cases h
        exact Or.inr ⟨before, d', after, rfl, hs⟩

/-- A relocation of the section is one of an initializer, moved to its place. -/
theorem mem_relocs_appendAll {data : List (String × DataAttr)} {sec : DataSection}
    {r : DataReloc} :
    r ∈ (appendAll os sec data).relocs ↔ r ∈ sec.relocs ∨
      ∃ before d after reloc, data = before ++ d :: after ∧ reloc ∈ d.2.relocs ∧
        r = ⟨nextMultipleOf (sectionEnd sec.bytes.length before) d.2.alignment + reloc.offset,
          os.symbolName reloc.symbol, reloc.addend⟩ := by
  induction data generalizing sec with
  | nil =>
    constructor
    · exact Or.inl
    · rintro (h | ⟨before, d, after, reloc, h, -⟩)
      · exact h
      · exact absurd h.symm (by simp)
  | cons d rest ih =>
    rw [appendAll, List.foldl_cons, ← appendAll, ih, appendGlobal_length, DataSection.appendGlobal,
      List.mem_append, List.mem_map, or_assoc]
    apply or_congr_right
    constructor
    · rintro (⟨reloc, hreloc, rfl⟩ | ⟨before, d', after, reloc, rfl, h⟩)
      · exact ⟨[], d, rest, reloc, rfl, hreloc, rfl⟩
      · exact ⟨d :: before, d', after, reloc, rfl, h⟩
    · rintro ⟨before, d', after, reloc, h, hreloc, hr⟩
      cases before with
      | nil =>
        cases h
        exact Or.inl ⟨reloc, hreloc, hr.symm⟩
      | cons d'' before =>
        cases h
        exact Or.inr ⟨before, d', after, reloc, rfl, hreloc, hr⟩

/-- The bytes of an initializer are at its place. -/
theorem sliceAt_appendAll {before after : List (String × DataAttr)} {d : String × DataAttr}
    (sec : DataSection) :
    sliceAt (appendAll os sec (before ++ d :: after)).bytes
      (nextMultipleOf (sectionEnd sec.bytes.length before) d.2.alignment) d.2.bytes.length =
        some d.2.bytes := by
  have hsplit : appendAll os sec (before ++ d :: after) =
      appendAll os ((appendAll os sec before).appendGlobal (os.symbolName d.1) d.2 os) after := by
    rw [appendAll, List.foldl_append, List.foldl_cons]
    rfl
  obtain ⟨more, hmore⟩ := exists_bytes_appendAll os after
    ((appendAll os sec before).appendGlobal (os.symbolName d.1) d.2 os)
  rw [hsplit, hmore]
  apply sliceAt_append_right
  have hlen := appendAll_length os before sec
  have hle := le_nextMultipleOf (alignment_pos d.2) (appendAll os sec before).bytes.length
  rw [← hlen, sliceAt_eq_some_iff]
  refine ⟨_, [], (List.append_nil _).symm, ?_, rfl⟩
  rw [List.length_append, List.length_replicate, DataSection.place]
  omega

/-- The symbols of the section follow one another without overlap. -/
theorem pairwise_symbols_appendAll (data : List (String × DataAttr)) (sec : DataSection)
    (hsec : sec.symbols.Pairwise fun s t => s.offset + s.size ≤ t.offset)
    (hend : ∀ s ∈ sec.symbols, s.offset + s.size ≤ sec.bytes.length) :
    (appendAll os sec data).symbols.Pairwise fun s t => s.offset + s.size ≤ t.offset := by
  induction data generalizing sec with
  | nil => exact hsec
  | cons d rest ih =>
    have hle := le_nextMultipleOf (alignment_pos d.2) sec.bytes.length
    apply ih (sec.appendGlobal (os.symbolName d.1) d.2 os)
    · apply List.pairwise_append.mpr
      refine ⟨hsec, List.pairwise_singleton _ _, fun s hs t ht => ?_⟩
      rw [List.mem_singleton.mp ht]
      exact Nat.le_trans (hend s hs) hle
    · intro s hs
      rw [appendGlobal_length]
      rcases List.mem_append.mp hs with hs | hs
      · have := hend s hs
        omega
      · rw [List.mem_singleton.mp hs]
        exact Nat.le_refl _

/-- An alignment is a power of two. -/
theorem exists_alignment (init : DataAttr) : ∃ k, init.alignment = 2 ^ k := by
  rcases init.align_pow with h | ⟨k, h⟩
  · exact ⟨0, by rw [DataAttr.alignment, h]; rfl⟩
  · refine ⟨k, ?_⟩
    rw [DataAttr.alignment, h]
    exact Nat.max_eq_left Nat.one_le_two_pow

/-- Of two powers of two the larger is a multiple of the other. -/
theorem two_pow_dvd_max (a b : Nat) : 2 ^ a ∣ max (2 ^ a) (2 ^ b) ∧ 2 ^ b ∣ max (2 ^ a) (2 ^ b) := by
  rcases Nat.le_total a b with h | h
  · rw [Nat.max_eq_right (Nat.pow_le_pow_right (by omega) h)]
    exact ⟨Nat.pow_dvd_pow 2 h, Nat.dvd_refl _⟩
  · rw [Nat.max_eq_left (Nat.pow_le_pow_right (by omega) h)]
    exact ⟨Nat.dvd_refl _, Nat.pow_dvd_pow 2 h⟩

theorem align_appendGlobal (os : TargetOs) {sec : DataSection} (name : String) (init : DataAttr)
    (hsec : sec.align = 0 ∨ ∃ k, sec.align = 2 ^ k) :
    (∃ k, (sec.appendGlobal name init os).align = 2 ^ k) ∧
      (sec.align ≠ 0 → sec.align ∣ (sec.appendGlobal name init os).align) ∧
      init.alignment ∣ (sec.appendGlobal name init os).align := by
  obtain ⟨b, hb⟩ := exists_alignment init
  rw [DataSection.appendGlobal]
  rcases hsec with h | ⟨a, h⟩
  · rw [h, Nat.zero_max]
    exact ⟨⟨b, hb⟩, fun hne => absurd rfl hne, Nat.dvd_refl _⟩
  · rw [h, hb]
    obtain ⟨ha, hb'⟩ := two_pow_dvd_max a b
    refine ⟨?_, fun _ => ha, hb'⟩
    rcases max_choice (2 ^ a) (2 ^ b) with hm | hm
    · exact ⟨a, hm⟩
    · exact ⟨b, hm⟩

/-- The section is aligned for each of its initializers. -/
theorem align_appendAll (data : List (String × DataAttr)) (sec : DataSection)
    (hsec : sec.align = 0 ∨ ∃ k, sec.align = 2 ^ k) :
    (sec.align ≠ 0 → sec.align ∣ (appendAll os sec data).align) ∧
      ∀ d ∈ data, d.2.alignment ∣ (appendAll os sec data).align := by
  induction data generalizing sec with
  | nil => exact ⟨fun _ => Nat.dvd_refl _, fun d hd => absurd hd List.not_mem_nil⟩
  | cons d rest ih =>
    obtain ⟨⟨k, hk⟩, hold, hnew⟩ :=
      align_appendGlobal os (os.symbolName d.1) d.2 hsec
    obtain ⟨hkeep, hrest⟩ := ih (sec.appendGlobal (os.symbolName d.1) d.2 os) (Or.inr ⟨k, hk⟩)
    have hdvd := hkeep (by rw [hk]; exact (Nat.two_pow_pos k).ne')
    refine ⟨fun hne => Nat.dvd_trans (hold hne) hdvd, fun d' hd' => ?_⟩
    rcases List.mem_cons.mp hd' with rfl | hd'
    · exact Nat.dvd_trans hnew hdvd
    · exact hrest d' hd'

end DataSections

/-! ## The walk -/

section Walk

variable {os : TargetOs}

theorem foldl_push_sections (kind : SectionKind) (items : List ModuleItem) (c : Collected) :
    (items.foldl (Collected.push os) c).sections kind =
      appendAll os (c.sections kind) (dataOf kind items) := by
  induction items generalizing c with
  | nil => rfl
  | cons item rest ih =>
    rw [List.foldl_cons, ih, dataOf_cons]
    cases item with
    | func name linkage encoded => rfl
    | global g =>
      cases hinit : g.init with
      | absent => simp only [Collected.push, ModuleItem.data?, hinit]; rfl
      | other => simp only [Collected.push, ModuleItem.data?, hinit]; rfl
      | data init =>
        simp only [Collected.push, ModuleItem.data?, hinit]
        by_cases hkind : init.sectionKind g.threadLocal = kind
        · subst hkind
          rw [if_pos rfl, Function.update_self]
          rfl
        · rw [if_neg hkind, Function.update_of_ne (Ne.symm hkind)]
          rfl

theorem collectItems_sections (kind : SectionKind) (items : List ModuleItem) :
    (collectItems os items).sections kind = appendAll os {} (dataOf kind items) :=
  foldl_push_sections kind items {}

theorem foldl_push_text (items : List ModuleItem) (c : Collected) :
    (items.foldl (Collected.push os) c).text =
      c.text ++ ((funcsOf items).map fun func => func.2.2).flatten := by
  induction items generalizing c with
  | nil => exact (List.append_nil _).symm
  | cons item rest ih =>
    rw [List.foldl_cons, ih, funcsOf_cons, List.map_append, List.flatten_append,
      ← List.append_assoc]
    congr 1
    cases item with
    | func name linkage encoded => exact congrArg _ (List.append_nil encoded).symm
    | global g =>
      rw [Collected.push]
      split <;> exact (List.append_nil _).symm

theorem length_flatten_funcs (funcs : List (String × LinkageAttr × List UInt8)) :
    (funcs.map fun func => func.2.2).flatten.length = textSize funcs := by
  rw [List.length_flatten, List.map_map]
  rfl

/-- The bytes of a function are in the text at the sizes before it. -/
theorem sliceAt_text {before after : List ModuleItem} {name : String} {linkage : LinkageAttr}
    {encoded : List UInt8} :
    sliceAt (collectItems os (before ++ .func name linkage encoded :: after)).text
      (textSize (funcsOf before)) encoded.length = some encoded := by
  rw [collectItems, foldl_push_text, funcsOf_append, funcsOf_cons, List.map_append,
    List.flatten_append, ← length_flatten_funcs]
  rw [sliceAt_eq_some_iff]
  exact ⟨_, _, (List.append_assoc _ encoded _).symm, rfl, rfl⟩

/-- The text symbols are those of the exported functions, at the sizes before them. -/
theorem mem_foldl_push_symbols {items : List ModuleItem} {c : Collected} {s : Symbol} :
    s ∈ (items.foldl (Collected.push os) c).symbols ↔ s ∈ c.symbols ∨
      ∃ before name linkage encoded after, items = before ++ .func name linkage encoded :: after ∧
        (linkage = .external ∨ linkage = .weak) ∧
        s = ⟨os.symbolName name, c.text.length + textSize (funcsOf before), true, true⟩ := by
  induction items generalizing c with
  | nil =>
    constructor
    · exact Or.inl
    · rintro (h | ⟨before, name, linkage, encoded, after, h, -⟩)
      · exact h
      · exact absurd h.symm (by simp)
  | cons item rest ih =>
    rw [List.foldl_cons, ih]
    cases item with
    | func name linkage encoded =>
      have hlen : (c.push os (.func name linkage encoded)).text.length =
          c.text.length + encoded.length := List.length_append
      have htext : ∀ before : List ModuleItem,
          c.text.length + textSize (funcsOf (.func name linkage encoded :: before)) =
            c.text.length + encoded.length + textSize (funcsOf before) := by
        intro before
        rw [Nat.add_assoc]
        rfl
      have hpush : s ∈ (c.push os (.func name linkage encoded)).symbols ↔ s ∈ c.symbols ∨
          (linkage = .external ∨ linkage = .weak) ∧
            s = ⟨os.symbolName name, c.text.length, true, true⟩ := by
        rw [Collected.push]
        by_cases hvis : linkage = .external ∨ linkage = .weak
        · simp only [hvis, if_true, List.mem_append, List.mem_singleton, true_and]
        · simp only [hvis, if_false, false_and, or_false]
      rw [hpush, or_assoc, hlen]
      apply or_congr_right
      constructor
      · rintro (⟨hvis, h⟩ | ⟨before, name', linkage', encoded', after, rfl, hvis, h⟩)
        · exact ⟨[], name, linkage, encoded, rest, rfl, hvis, h⟩
        · refine ⟨.func name linkage encoded :: before, name', linkage', encoded', after, rfl,
            hvis, ?_⟩
          rw [h, htext]
      · rintro ⟨before, name', linkage', encoded', after, h, hvis, hs⟩
        cases before with
        | nil =>
          cases h
          exact Or.inl ⟨hvis, hs⟩
        | cons item before =>
          cases h
          rw [htext] at hs
          exact Or.inr ⟨before, name', linkage', encoded', after, rfl, hvis, hs⟩
    | global g =>
      have hpush : (c.push os (.global g)).symbols = c.symbols ∧
          (c.push os (.global g)).text = c.text := by
        rw [Collected.push]
        split <;> exact ⟨rfl, rfl⟩
      rw [hpush.1, hpush.2]
      apply or_congr_right
      constructor
      · rintro ⟨before, name', linkage', encoded', after, rfl, hvis, h⟩
        exact ⟨.global g :: before, name', linkage', encoded', after, rfl, hvis, h⟩
      · rintro ⟨before, name', linkage', encoded', after, h, hvis, hs⟩
        cases before with
        | nil => cases h
        | cons item before =>
          cases h
          exact ⟨before, name', linkage', encoded', after, rfl, hvis, hs⟩

end Walk

/-! ## Undefined symbols -/

theorem SectionKind.mem_all (kind : SectionKind) : kind ∈ SectionKind.all := by
  cases kind <;> decide

section Ensure

variable {sections : SectionKind → DataSection}

/-- Ensuring symbols for targets only adds undefined ones, for targets that
    had none; afterwards every target has one. -/
theorem foldl_ensureSymbol (targets : List String) (symbols : List Symbol) :
    ∃ extra, targets.foldl (ensureSymbol sections) symbols = symbols ++ extra ∧
      (∀ s ∈ extra, s.defined = false ∧ s.name ∈ targets ∧
        (∀ t ∈ symbols, t.name ≠ s.name) ∧ ∀ kind, (sections kind).defines s.name = false) ∧
      ∀ name ∈ targets, (∃ s ∈ symbols ++ extra, s.name = name) ∨
        ∃ kind, (sections kind).defines name = true := by
  induction targets generalizing symbols with
  | nil =>
    exact ⟨[], (List.append_nil _).symm, fun s hs => absurd hs List.not_mem_nil,
      fun name hname => absurd hname List.not_mem_nil⟩
  | cons target rest ih =>
    by_cases hhas : (∃ t ∈ symbols, t.name = target) ∨
        ∃ kind, (sections kind).defines target = true
    · -- the target has a symbol already
      have hsame : ensureSymbol sections symbols target = symbols := by
        rw [ensureSymbol, if_pos]
        rw [Bool.or_eq_true, List.any_eq_true, List.any_eq_true]
        rcases hhas with ⟨t, ht, hname⟩ | ⟨kind, hkind⟩
        · exact Or.inl ⟨t, ht, beq_iff_eq.mpr hname⟩
        · exact Or.inr ⟨kind, kind.mem_all, hkind⟩
      obtain ⟨extra, hextra, hnew, hall⟩ := ih symbols
      refine ⟨extra, by rw [List.foldl_cons, hsame, hextra], fun s hs => ?_, fun name hname => ?_⟩
      · obtain ⟨hdef, hmem, hfresh⟩ := hnew s hs
        exact ⟨hdef, List.mem_cons_of_mem _ hmem, hfresh⟩
      · rcases List.mem_cons.mp hname with rfl | hname
        · exact hhas.imp (fun ⟨t, ht, htn⟩ => ⟨t, List.mem_append_left _ ht, htn⟩) id
        · exact hall name hname
    · rw [not_or] at hhas
      have hpush : ensureSymbol sections symbols target = symbols ++ [⟨target, 0, true, false⟩] := by
        rw [ensureSymbol, if_neg]
        rw [Bool.or_eq_true, List.any_eq_true, List.any_eq_true, not_or]
        refine ⟨fun ⟨t, ht, hname⟩ => hhas.1 ⟨t, ht, beq_iff_eq.mp hname⟩,
          fun ⟨kind, _, hkind⟩ => hhas.2 ⟨kind, hkind⟩⟩
      obtain ⟨extra, hextra, hnew, hall⟩ := ih (symbols ++ [⟨target, 0, true, false⟩])
      have hdefines : ∀ kind, (sections kind).defines target = false := fun kind =>
        Bool.eq_false_iff.mpr fun h => hhas.2 ⟨kind, h⟩
      refine ⟨⟨target, 0, true, false⟩ :: extra, ?_, fun s hs => ?_, fun name hname => ?_⟩
      · rw [List.foldl_cons, hpush, hextra, List.append_assoc, List.singleton_append]
      · rcases List.mem_cons.mp hs with rfl | hs
        · exact ⟨rfl, List.mem_cons_self, fun t ht hname => hhas.1 ⟨t, ht, hname⟩, hdefines⟩
        · obtain ⟨hdef, hmem, hfresh, hsec⟩ := hnew s hs
          exact ⟨hdef, List.mem_cons_of_mem _ hmem,
            fun t ht => hfresh t (List.mem_append_left _ ht), hsec⟩
      · rcases List.mem_cons.mp hname with rfl | hname
        · exact Or.inl ⟨_, List.mem_append_right _ List.mem_cons_self, rfl⟩
        · rw [← List.singleton_append, ← List.append_assoc]
          exact hall name hname

end Ensure

end Crabbit.Aarch64
