/-
  Crabbit.PlironTrace.RoundTrip

  What is read back of a written trace.  The header always ends where the
  scanner says.  Behind it the reader sees lines only: it opens a part at
  every line that looks like a marker, in the IR too, and takes a carriage
  return at the end of a line for a part of the line's end.
-/

import Crabbit.PlironTrace.Format

namespace Crabbit.PlironTrace

open Crabbit.Lib

/-! ## The header -/

theorem scanJson_string {body : List Char} (h : StringBody body) (idx depth : Nat)
    (rest : List Char) : scanJson '{' '}' idx depth true false (body ++ '"' :: rest) =
      scanJson '{' '}' (idx + body.length + 1) depth false false rest := by
  induction h generalizing idx with
  | nil => rfl
  | plain c hquote hslash _ ih =>
    rw [List.cons_append, scanJson, if_pos rfl, if_neg Bool.false_ne_true, if_neg hslash,
      if_neg hquote, ih, List.length_cons, Nat.add_assoc idx 1, Nat.add_comm 1]
  | escape c _ ih =>
    rw [List.cons_append, List.cons_append, scanJson, if_pos rfl, if_neg Bool.false_ne_true,
      if_pos rfl, scanJson, if_pos rfl, if_pos rfl, ih, List.length_cons, List.length_cons]
    congr 1
    omega

/-- Balanced text leaves the depth as it is. -/
theorem scanJson_balanced {text : List Char} (h : Balanced text) (idx depth : Nat)
    (rest : List Char) : scanJson '{' '}' idx (depth + 1) false false (text ++ rest) =
      scanJson '{' '}' (idx + text.length) (depth + 1) false false rest := by
  induction h generalizing idx depth rest with
  | nil => rfl
  | plain c hquote hopen hclose _ ih =>
    rw [List.cons_append, scanJson, if_neg Bool.false_ne_true, if_neg hquote, if_neg hopen,
      if_neg hclose, ih, List.length_cons, Nat.add_assoc idx 1, Nat.add_comm 1]
  | string hbody _ ih =>
    rw [List.cons_append, scanJson, if_neg Bool.false_ne_true, if_pos rfl, List.append_assoc,
      List.cons_append, scanJson_string hbody, ih, List.length_cons, List.length_append,
      List.length_cons]
    congr 1
    omega
  | braces _ _ ihinner ih =>
    have hopen : ¬ '{' = '"' := by decide
    have hclose : ¬ '}' = '"' ∧ ¬ '}' = '{' := by decide
    rw [List.cons_append, scanJson, if_neg Bool.false_ne_true, if_neg hopen, if_pos rfl,
      List.append_assoc, List.cons_append, ihinner, scanJson, if_neg Bool.false_ne_true,
      if_neg hclose.1, if_neg hclose.2, if_pos rfl, if_neg (by omega), Nat.add_sub_cancel, ih,
      List.length_cons, List.length_append, List.length_cons]
    congr 1
    omega

/-- The header ends where it was written to end, whatever its strings hold. -/
theorem findJsonEnd_object {text : List Char} (h : IsObject text) (rest : List Char) :
    findJsonEnd (text ++ rest) = some text.length := by
  obtain ⟨members, hmembers, rfl⟩ := h
  have hclose : ¬ '}' = '"' ∧ ¬ '}' = '{' := by decide
  rw [List.cons_append, findJsonEnd, List.append_assoc, List.singleton_append]
  change scanJson '{' '}' 1 (0 + 1) false false _ = _
  rw [scanJson_balanced hmembers, scanJson, if_neg Bool.false_ne_true, if_neg hclose.1,
    if_neg hclose.2, if_pos rfl, if_pos rfl, List.length_cons, List.length_append,
    List.length_singleton]
  congr 1
  omega

/-! ## Markers -/

/-- A line that is taken for a marker. -/
def IsMarker (line : List Char) : Prop :=
  PART_MARKER_PREFIX <+: trim line ∧ PART_MARKER_SUFFIX <:+ trim line

instance (line : List Char) : Decidable (IsMarker line) :=
  inferInstanceAs (Decidable (_ ∧ _))

theorem parsePartMarker_eq_none {line : List Char} : parsePartMarker line = none ↔
    ¬ IsMarker line := by
  rw [parsePartMarker, IsMarker, Classical.not_and_iff_not_or_not]
  split
  · exact iff_of_true rfl ‹_›
  · exact iff_of_false (fun h => by cases h) ‹_›

/-- A label as the reader makes them. -/
def IsLabel (label : List Char) : Prop :=
  label ≠ [] ∧ trim label = label ∧ '\n' ∉ label

instance (label : List Char) : Decidable (IsLabel label) :=
  inferInstanceAs (Decidable (_ ∧ _))

theorem isLabel_of_parsePartMarker {line label : List Char} (hline : '\n' ∉ line)
    (h : parsePartMarker line = some label) : IsLabel label := by
  rw [parsePartMarker] at h
  split at h
  · cases h
  · obtain rfl := Option.some.inj h
    split
    · decide
    · rename_i hne
      refine ⟨hne, trimMatches_trimMatches _, fun hmem => hline ?_⟩
      have hend := (trimEndText_isPrefix _ _).mem (mem_of_mem_trimMatches hmem)
      exact mem_of_mem_trimMatches ((trimStartText_suffix _ _).mem hend)

theorem marker_eq (label : List Char) : marker label =
    PART_MARKER_PREFIX ++ (' ' :: (label ++ [' ']) ++ PART_MARKER_SUFFIX) := by
  have hopen : "--- crabbit ".toList = PART_MARKER_PREFIX ++ [' '] := by decide
  have hclose : " ---".toList = ' ' :: PART_MARKER_SUFFIX := by decide
  delta marker
  rw [hopen, hclose]
  simp only [List.append_assoc, List.cons_append, List.nil_append]

theorem trim_marker (label : List Char) : trim (marker label) = marker label := by
  refine trimMatches_eq_self ?_ ?_
  · rw [marker_eq]
    rintro c ⟨⟩
    decide
  · rw [marker_eq, ← List.append_assoc, List.getLast?_append_of_ne_nil _ (by decide)]
    rintro c ⟨⟩
    decide

/-- A marker line is read back as its label, without the blanks around it. -/
theorem parsePartMarker_marker {label : List Char} (hne : label ≠ [])
    (htrim : trim label = label) : parsePartMarker (marker label) = some label := by
  have hstart : trimStartText PART_MARKER_PREFIX (marker label) =
      ' ' :: (label ++ [' ']) ++ PART_MARKER_SUFFIX := by
    rw [marker_eq]
    refine trimStartText_append (by decide) fun h => ?_
    obtain ⟨after, hafter⟩ := h
    cases hafter
  have hend : trimEndText PART_MARKER_SUFFIX (' ' :: (label ++ [' ']) ++ PART_MARKER_SUFFIX) =
      ' ' :: (label ++ [' ']) := by
    refine trimEndText_append (by decide) fun h => ?_
    obtain ⟨before, hbefore⟩ := h
    have hlast := congrArg List.getLast? hbefore
    rw [List.getLast?_append_of_ne_nil _ (by decide), ← List.cons_append, List.getLast?_concat]
      at hlast
    exact absurd hlast (by decide)
  have hlabel : trim (' ' :: (label ++ [' '])) = label := by
    rw [trim, trimMatches_cons (by decide), trimMatches_concat (by decide)]
    exact htrim
  have hopening : PART_MARKER_PREFIX <+: marker label := by
    rw [marker_eq]
    exact List.prefix_append _ _
  have hclosing : PART_MARKER_SUFFIX <:+ marker label := by
    rw [marker_eq, ← List.append_assoc]
    exact List.suffix_append _ _
  rw [parsePartMarker, trim_marker, if_neg (by simp [hopening, hclosing]), hstart, hend, hlabel]
  exact congrArg some (if_neg hne)

theorem isMarker_marker {label : List Char} (h : IsLabel label) : IsMarker (marker label) := by
  by_contra hmarker
  have hnone := parsePartMarker_eq_none.mpr hmarker
  rw [parsePartMarker_marker h.1 h.2.1] at hnone
  cases hnone

theorem not_isMarker_nil : ¬ IsMarker [] := by decide

/-! ## The lines of a trace -/

/-- The lines the IR of a snapshot is read as. -/
def irLines (dump : Snapshot) : List (List Char) :=
  ((trimNewlines dump.ir).splitOn '\n').map stripCr

def dumpLines (dump : Snapshot) : List (List Char) := marker dump.label :: (irLines dump ++ [[]])

theorem stripCr_marker (label : List Char) : stripCr (marker label) = marker label := by
  refine stripCr_eq_self ?_
  rw [marker_eq, ← List.append_assoc, List.getLast?_append_of_ne_nil _ (by decide)]
  decide

theorem notMem_marker {label : List Char} (h : '\n' ∉ label) : '\n' ∉ marker label := by
  have hopening : '\n' ∉ PART_MARKER_PREFIX := by decide
  have hclosing : '\n' ∉ PART_MARKER_SUFFIX := by decide
  rw [marker_eq]
  simp [h, hopening, hclosing]

theorem lines_text {dump : Snapshot} (h : '\n' ∉ dump.label) (rest : List Char) :
    lines (dump.text ++ rest) = dumpLines dump ++ lines rest := by
  have hblank : ['\n', '\n'] ++ rest = '\n' :: ([] ++ '\n' :: rest) := rfl
  rw [Snapshot.text, List.append_assoc, List.cons_append, List.append_assoc, hblank, lines_append,
    List.splitOn_eq_singleton (notMem_marker h), lines_append, lines_append, List.map_singleton,
    stripCr_marker, dumpLines, irLines]
  simp only [List.cons_append, List.nil_append, List.append_assoc]
  rfl

theorem lines_body {dumps : List Snapshot} (h : ∀ dump ∈ dumps, '\n' ∉ dump.label) :
    lines (dumps.flatMap Snapshot.text) = dumps.flatMap dumpLines := by
  induction dumps with
  | nil => rfl
  | cons dump dumps ih =>
    rw [List.flatMap_cons, lines_text (h _ List.mem_cons_self),
      ih fun d hd => h d (List.mem_cons_of_mem _ hd), List.flatMap_cons]

/-! ## Parts -/

theorem read_plain {line : List Char} (h : ¬ IsMarker line) (parts : List Snapshot)
    (label current : List Char) : Parts.read ⟨parts, some label, current⟩ line =
      ⟨parts, some label, current ++ (line ++ ['\n'])⟩ := by
  rw [Parts.read, parsePartMarker_eq_none.mpr h]

theorem read_marker {line next : List Char} (h : parsePartMarker line = some next)
    (parts : List Snapshot) (label current : List Char) :
    Parts.read ⟨parts, some label, current⟩ line =
      ⟨parts ++ [⟨label, trimNewlines current⟩], some next, []⟩ := by
  rw [Parts.read, h]

theorem read_start {line label : List Char} (h : parsePartMarker line = some label) :
    Parts.start.read line = ⟨[], some label, []⟩ := by
  rw [Parts.read, h]
  rfl

/-- Lines that are no markers are kept. -/
theorem foldl_read_plain {ls : List (List Char)} (h : ∀ line ∈ ls, ¬ IsMarker line)
    (parts : List Snapshot) (label current : List Char) :
    ls.foldl Parts.read ⟨parts, some label, current⟩ =
      ⟨parts, some label, current ++ ls.flatMap fun line => line ++ ['\n']⟩ := by
  induction ls generalizing current with
  | nil => rw [List.flatMap_nil, List.append_nil]; rfl
  | cons line ls ih =>
    rw [List.foldl_cons, read_plain (h line List.mem_cons_self),
      ih (fun l hl => h l (List.mem_cons_of_mem _ hl)), List.flatMap_cons, List.append_assoc current]

/-- What is read of a snapshot, if none of its IR is taken for a marker. -/
def readBack (dump : Snapshot) : Snapshot where
  label := dump.label
  ir := trimNewlines ((irLines dump ++ [[]]).flatMap fun line => line ++ ['\n'])

/-- A snapshot that nothing in it interrupts. -/
def Whole (dump : Snapshot) : Prop := IsLabel dump.label ∧ ∀ line ∈ irLines dump, ¬ IsMarker line

theorem foldl_read_ir {dump : Snapshot} (h : Whole dump) (parts : List Snapshot)
    (label : List Char) : (irLines dump ++ [[]]).foldl Parts.read ⟨parts, some label, []⟩ =
      ⟨parts, some label, (irLines dump ++ [[]]).flatMap fun line => line ++ ['\n']⟩ := by
  rw [foldl_read_plain, List.nil_append]
  intro line hline
  rcases List.mem_append.mp hline with hline | hline
  · exact h.2 line hline
  · rw [List.mem_singleton.mp hline]
    exact not_isMarker_nil

theorem foldl_dumps {dumps : List Snapshot} (h : ∀ dump ∈ dumps, Whole dump)
    (parts : List Snapshot) (label current : List Char) :
    ((dumps.flatMap dumpLines).foldl Parts.read ⟨parts, some label, current⟩).finish =
      parts ++ ⟨label, trimNewlines current⟩ :: dumps.map readBack := by
  induction dumps generalizing parts label current with
  | nil => rfl
  | cons dump dumps ih =>
    have hdump := h dump List.mem_cons_self
    have hmarker := parsePartMarker_marker hdump.1.1 hdump.1.2.1
    rw [List.flatMap_cons, dumpLines, List.foldl_append, List.foldl_cons, read_marker hmarker,
      foldl_read_ir hdump, ih fun d hd => h d (List.mem_cons_of_mem _ hd), List.map_cons,
      List.append_assoc]
    rfl

theorem parseParts_body {dumps : List Snapshot} (h : ∀ dump ∈ dumps, Whole dump) :
    parseParts (dumps.flatMap Snapshot.text) = dumps.map readBack := by
  rw [parseParts, lines_body fun d hd => (h d hd).1.2.2]
  cases dumps with
  | nil => rfl
  | cons dump dumps =>
    have hdump := h dump List.mem_cons_self
    have hmarker := parsePartMarker_marker hdump.1.1 hdump.1.2.1
    rw [List.flatMap_cons, dumpLines, List.foldl_append, List.foldl_cons, read_start hmarker,
      foldl_read_ir hdump, foldl_dumps fun d hd => h d (List.mem_cons_of_mem _ hd)]
    rfl

/-! ### How many parts -/

/-- An open part, and one for every marker. -/
theorem length_finish (ls : List (List Char)) (parts : List Snapshot)
    (label current : List Char) :
    (ls.foldl Parts.read ⟨parts, some label, current⟩).finish.length =
      parts.length + 1 + ls.countP fun line => decide (IsMarker line) := by
  induction ls generalizing parts label current with
  | nil => exact List.length_append
  | cons line ls ih =>
    rw [List.foldl_cons, List.countP_cons]
    cases hmarker : parsePartMarker line with
    | none =>
      have hline := parsePartMarker_eq_none.mp hmarker
      rw [read_plain hline, ih, decide_eq_false hline]
      rfl
    | some next =>
      have hline : IsMarker line := by
        by_contra hline
        rw [parsePartMarker_eq_none.mpr hline] at hmarker
        cases hmarker
      rw [if_pos (decide_eq_true hline), read_marker hmarker, ih, List.length_append,
        List.length_singleton]
      omega

theorem countP_dumps (dumps : List Snapshot) (h : ∀ dump ∈ dumps, IsLabel dump.label) :
    (dumps.flatMap dumpLines).countP (fun line => decide (IsMarker line)) =
      dumps.length + (dumps.flatMap irLines).countP fun line => decide (IsMarker line) := by
  induction dumps with
  | nil => rfl
  | cons dump dumps ih =>
    have hmarker := isMarker_marker (h dump List.mem_cons_self)
    rw [List.flatMap_cons, List.flatMap_cons, List.countP_append, List.countP_append,
      ih fun d hd => h d (List.mem_cons_of_mem _ hd), dumpLines, List.countP_cons,
      if_pos (decide_eq_true hmarker), List.countP_append, List.countP_singleton,
      if_neg (by simpa using not_isMarker_nil), List.length_cons]
    omega

/-- As many parts as snapshots: then no line of the IR was taken for a marker. -/
theorem whole_of_length {dumps : List Snapshot} (hlabels : ∀ dump ∈ dumps, IsLabel dump.label)
    (h : (parseParts (dumps.flatMap Snapshot.text)).length = dumps.length) :
    ∀ dump ∈ dumps, Whole dump := by
  have hcount : (dumps.flatMap dumpLines).countP (fun line => decide (IsMarker line)) =
      dumps.length := by
    rw [parseParts, lines_body fun d hd => (hlabels d hd).2.2] at h
    cases dumps with
    | nil => rfl
    | cons dump dumps =>
      have hlabel := hlabels dump List.mem_cons_self
      rw [List.flatMap_cons, dumpLines, List.cons_append, List.foldl_cons,
        read_start (parsePartMarker_marker hlabel.1 hlabel.2.1), length_finish, List.length_nil] at h
      rw [List.flatMap_cons, dumpLines, List.cons_append, List.countP_cons,
        if_pos (decide_eq_true (isMarker_marker hlabel))]
      omega
  rw [countP_dumps dumps hlabels] at hcount
  have hnone : (dumps.flatMap irLines).countP (fun line => decide (IsMarker line)) = 0 := by omega
  intro dump hdump
  refine ⟨hlabels dump hdump, fun line hline hmarker => ?_⟩
  have hmem : line ∈ dumps.flatMap irLines := List.mem_flatMap.mpr ⟨dump, hdump, hline⟩
  exact (List.countP_eq_zero.mp hnone) line hmem (decide_eq_true hmarker)

/-! ### The labels that are read -/

/-- What holds of the parts at any time. -/
structure Parts.Labelled (state : Parts) : Prop where
  parts : ∀ dump ∈ state.parts, IsLabel dump.label
  currentLabel : ∀ label ∈ state.currentLabel, IsLabel label

theorem labelled_read {state : Parts} (h : state.Labelled) {line : List Char}
    (hline : '\n' ∉ line) : (state.read line).Labelled := by
  rw [Parts.read]
  split
  · rename_i label previous hmarker hprevious
    refine ⟨fun dump hdump => ?_, fun l hl => ?_⟩
    · rcases List.mem_append.mp hdump with hdump | hdump
      · exact h.parts dump hdump
      · rw [List.mem_singleton.mp hdump]
        exact h.currentLabel previous hprevious
    · exact Option.some.inj hl ▸ isLabel_of_parsePartMarker hline hmarker
  · rename_i label hmarker _
    exact ⟨h.parts, fun l hl => Option.some.inj hl ▸ isLabel_of_parsePartMarker hline hmarker⟩
  · exact ⟨h.parts, h.currentLabel⟩
  · split
    · refine ⟨h.parts, fun l hl => ?_⟩
      obtain rfl := Option.some.inj hl
      decide
    · exact h

theorem labelled_foldl {ls : List (List Char)} (hls : ∀ line ∈ ls, '\n' ∉ line) {state : Parts}
    (h : state.Labelled) : (ls.foldl Parts.read state).Labelled := by
  induction ls generalizing state with
  | nil => exact h
  | cons line ls ih =>
    exact ih (fun l hl => hls l (List.mem_cons_of_mem _ hl))
      (labelled_read h (hls line List.mem_cons_self))

/-- No label is read that does not look like one. -/
theorem isLabel_of_parseParts {body : List Char} : ∀ dump ∈ parseParts body,
    IsLabel dump.label := by
  have hstart : Parts.start.Labelled := ⟨fun _ h => absurd h List.not_mem_nil, fun _ h => by cases h⟩
  have hend : ((lines body).foldl Parts.read Parts.start).Labelled :=
    labelled_foldl (fun _ hline => notMem_of_mem_lines hline) hstart
  intro dump hdump
  rw [parseParts, Parts.finish] at hdump
  split at hdump
  · rename_i label hlabel
    rcases List.mem_append.mp hdump with hdump | hdump
    · exact hend.parts dump hdump
    · rw [List.mem_singleton.mp hdump]
      exact hend.currentLabel label hlabel
  · exact hend.parts dump hdump

/-! ## The IR -/

theorem trimNewlines_concat (text : List Char) :
    trimNewlines (text ++ ['\n']) = trimNewlines text := trimMatches_concat (beq_self_eq_true _)

theorem trimNewlines_trimNewlines (text : List Char) :
    trimNewlines (trimNewlines text) = trimNewlines text := trimMatches_trimMatches _

theorem readBack_ir (dump : Snapshot) : (readBack dump).ir =
    trimNewlines ((irLines dump).flatMap fun line => line ++ ['\n']) := by
  rw [readBack, List.flatMap_append]
  exact trimNewlines_concat _

theorem irLines_plain {dump : Snapshot}
    (h : ∀ line ∈ (trimNewlines dump.ir).splitOn '\n', line.getLast? ≠ some '\r') :
    irLines dump = (trimNewlines dump.ir).splitOn '\n' := by
  rw [irLines, List.map_congr_left fun line hline => stripCr_eq_self (h line hline), List.map_id']

/-- Without carriage returns at the ends of lines the IR is what it was. -/
theorem readBack_ir_eq {dump : Snapshot}
    (h : ∀ line ∈ (trimNewlines dump.ir).splitOn '\n', line.getLast? ≠ some '\r') :
    (readBack dump).ir = trimNewlines dump.ir := by
  rw [readBack_ir, irLines_plain h, flatMap_splitOn, trimNewlines_concat, trimNewlines_trimNewlines]

/-- A carriage return that is dropped makes the text shorter. -/
theorem length_stripped_lt {ls : List (List Char)} {line : List Char} (hline : line ∈ ls)
    (hcr : line.getLast? = some '\r') :
    ((ls.map stripCr).flatMap fun line => line ++ ['\n']).length <
      (ls.flatMap fun line => line ++ ['\n']).length := by
  have hle : ∀ rest : List (List Char),
      ((rest.map stripCr).flatMap fun line => line ++ ['\n']).length ≤
        (rest.flatMap fun line => line ++ ['\n']).length := by
    intro rest
    induction rest with
    | nil => exact Nat.le_refl _
    | cons l rest ih =>
      have hl := (stripCr_sublist l).length_le
      simp only [List.map_cons, List.flatMap_cons, List.length_append, List.length_singleton]
      omega
  induction ls with
  | nil => exact absurd hline List.not_mem_nil
  | cons l ls ih =>
    simp only [List.map_cons, List.flatMap_cons, List.length_append, List.length_singleton]
    rcases List.mem_cons.mp hline with rfl | hline
    · have hlt := length_stripCr_lt hcr
      have hrest := hle ls
      omega
    · have hl := (stripCr_sublist l).length_le
      have hlt := ih hline
      omega

/-- Lines end with a line break. -/
theorem exists_concat_newline {ls : List (List Char)} (hne : ls ≠ []) :
    ∃ before, (ls.flatMap fun line => line ++ ['\n']) = before ++ ['\n'] := by
  obtain ⟨init, last, rfl⟩ := List.eq_nil_or_concat ls |>.resolve_left hne
  refine ⟨(init.flatMap fun line => line ++ ['\n']) ++ last, ?_⟩
  rw [List.concat_eq_append, List.flatMap_append, List.flatMap_singleton, List.append_assoc]

/-- Nothing is put in the place of a carriage return. -/
theorem no_cr_of_readBack {dump : Snapshot} (h : (readBack dump).ir = trimNewlines dump.ir) :
    ∀ line ∈ (trimNewlines dump.ir).splitOn '\n', line.getLast? ≠ some '\r' := by
  intro line hline hcr
  have hne : irLines dump ≠ [] := List.map_eq_nil_iff.not.mpr (List.splitOn_ne_nil _ _)
  obtain ⟨before, hbefore⟩ := exists_concat_newline hne
  have hlt := length_stripped_lt hline hcr
  change ((irLines dump).flatMap _).length < _ at hlt
  rw [flatMap_splitOn, hbefore, List.length_append, List.length_append] at hlt
  rw [readBack_ir, hbefore, trimNewlines_concat] at h
  have hle : (trimNewlines before).length ≤ before.length := length_trimMatches_le _
  rw [h] at hle
  omega

/-! ## Traces -/

/-- The IR up to the line breaks around it. -/
def Snapshot.contents (dump : Snapshot) : List Char × List Char :=
  (dump.label, trimNewlines dump.ir)

theorem Snapshot.contents_inj {dump other : Snapshot} (h : dump.contents = other.contents) :
    dump.label = other.label ∧ trimNewlines dump.ir = trimNewlines other.ir := by
  rw [contents, contents, Prod.mk.injEq] at h
  exact h

variable {Meta : Type}

/-- The same metadata, labels and IR. -/
def Trace.Same (trace back : Trace Meta) : Prop :=
  back.metadata = trace.metadata ∧
    back.snapshots.map Snapshot.contents = trace.snapshots.map Snapshot.contents

theorem trimStart_body (dumps : List Snapshot) :
    trimStartMatches isWhiteSpace (['\n', '\n'] ++ dumps.flatMap Snapshot.text) =
      dumps.flatMap Snapshot.text := by
  have hblank : isWhiteSpace '\n' = true := by decide
  rw [trimStartMatches, List.cons_append, List.dropWhile_cons_of_pos hblank, List.cons_append,
    List.dropWhile_cons_of_pos hblank, List.nil_append]
  refine trimStartMatches_eq_self fun c hc => ?_
  cases dumps with
  | nil => cases hc
  | cons dump dumps =>
    rw [List.flatMap_cons, Snapshot.text, marker_eq] at hc
    obtain rfl := Option.some.inj hc
    decide

theorem parseTrace_toText {serde : SerdeJson Meta} (hserde : serde.Documented)
    (trace : Trace Meta) : parseTrace serde (trace.toText serde) =
      (serde.fromStr (serde.toString trace.metadata)).map fun metadata =>
        ⟨metadata, parseParts (trace.snapshots.flatMap Snapshot.text)⟩ := by
  obtain ⟨members, hmembers, hobject⟩ := hserde trace.metadata
  have hstart : trimStartMatches isWhiteSpace (trace.toText serde) = trace.toText serde := by
    refine trimStartMatches_eq_self fun c hc => ?_
    rw [Trace.toText, hobject] at hc
    obtain rfl := Option.some.inj hc
    decide
  have hend : findJsonEnd (trace.toText serde) = some (serde.toString trace.metadata).length := by
    rw [Trace.toText, List.append_assoc]
    exact findJsonEnd_object ⟨members, hmembers, hobject⟩ _
  rw [trimStartMatches] at hstart
  rw [parseTrace, hstart]
  split
  · rename_i hnil
    rw [hnil] at hend
    cases hend
  · rw [hend]
    simp only [Trace.toText, List.append_assoc, List.take_left, List.drop_left]
    rw [trimStart_body]

/-- What a trace needs to be read back, its metadata apart: labels without
    blanks around them or line breaks, and in the IR no line that looks like a
    marker or ends with a carriage return. -/
def Snapshot.Plain (dump : Snapshot) : Prop :=
  IsLabel dump.label ∧
    ∀ line ∈ (trimNewlines dump.ir).splitOn '\n', ¬ IsMarker line ∧ line.getLast? ≠ some '\r'

instance (dump : Snapshot) : Decidable dump.Plain := inferInstanceAs (Decidable (_ ∧ _))

theorem Snapshot.Plain.whole {dump : Snapshot} (h : dump.Plain) : Whole dump := by
  refine ⟨h.1, fun line hline => ?_⟩
  rw [irLines_plain fun l hl => (h.2 l hl).2] at hline
  exact (h.2 line hline).1

theorem Snapshot.Plain.contents_readBack {dump : Snapshot} (h : dump.Plain) :
    (readBack dump).contents = dump.contents := by
  rw [Snapshot.contents, readBack_ir_eq fun line hline => (h.2 line hline).2,
    trimNewlines_trimNewlines]
  rfl

theorem plain_of_contents {dump : Snapshot} (hwhole : Whole dump)
    (h : (readBack dump).contents = dump.contents) : dump.Plain := by
  have htrimmed : trimNewlines (readBack dump).ir = (readBack dump).ir := by
    rw [readBack_ir, trimNewlines_trimNewlines]
  have hir : (readBack dump).ir = trimNewlines dump.ir :=
    htrimmed.symm.trans (Snapshot.contents_inj h).2
  have hcr := no_cr_of_readBack hir
  refine ⟨hwhole.1, fun line hline => ⟨hwhole.2 line ?_, hcr line hline⟩⟩
  rwa [irLines_plain hcr]

theorem plain_of_same {serde : SerdeJson Meta} (hserde : serde.Documented) {trace back : Trace Meta}
    (hback : parseTrace serde (trace.toText serde) = .ok back) (h : trace.Same back) :
    serde.fromStr (serde.toString trace.metadata) = .ok trace.metadata ∧
      ∀ dump ∈ trace.snapshots, dump.Plain := by
  obtain ⟨hmeta, hsnapshots⟩ := h
  rw [parseTrace_toText hserde] at hback
  cases hjson : serde.fromStr (serde.toString trace.metadata) with
  | error e => rw [hjson] at hback; cases hback
  | ok metadata =>
    rw [hjson] at hback
    cases hback
    refine ⟨congrArg Except.ok hmeta, ?_⟩
    change (parseParts _).map _ = _ at hsnapshots
    -- the labels were read, so they are as the reader makes them
    have hlabels : ∀ dump ∈ trace.snapshots, IsLabel dump.label := by
      intro dump hdump
      have hmem := hsnapshots ▸ List.mem_map_of_mem (f := Snapshot.contents) hdump
      obtain ⟨read, hread, heq⟩ := List.mem_map.mp hmem
      exact (Snapshot.contents_inj heq).1 ▸ isLabel_of_parseParts read hread
    have hlength := congrArg List.length hsnapshots
    rw [List.length_map, List.length_map] at hlength
    have hwhole := whole_of_length hlabels hlength
    rw [parseParts_body hwhole, List.map_map] at hsnapshots
    exact fun dump hdump => plain_of_contents (hwhole dump hdump)
      (List.map_inj_left.mp hsnapshots dump hdump)

/-- A written trace is read back exactly if its metadata survive as JSON and
    every snapshot is plain. -/
theorem parseTrace_toText_iff {serde : SerdeJson Meta} (hserde : serde.Documented)
    (trace : Trace Meta) :
    (∃ back, parseTrace serde (trace.toText serde) = .ok back ∧ trace.Same back) ↔
      serde.fromStr (serde.toString trace.metadata) = .ok trace.metadata ∧
        ∀ dump ∈ trace.snapshots, dump.Plain := by
  constructor
  · rintro ⟨back, hback, hsame⟩
    exact plain_of_same hserde hback hsame
  · rintro ⟨hjson, hplain⟩
    refine ⟨⟨trace.metadata, parseParts (trace.snapshots.flatMap Snapshot.text)⟩, ?_, rfl, ?_⟩
    · rw [parseTrace_toText hserde, hjson]
      rfl
    · show (parseParts _).map _ = _
      rw [parseParts_body fun dump hdump => (hplain dump hdump).whole, List.map_map]
      exact List.map_congr_left fun dump hdump => (hplain dump hdump).contents_readBack

/-! ### A crate's name as metadata -/

def escapeChar (c : Char) : List Char := if c = '"' ∨ c = '\\' then ['\\', c] else [c]

/-- What is read of a string, up to its quote. -/
def unescape : List Char → List Char
  | '\\' :: c :: rest => c :: unescape rest
  | c :: rest => if c = '"' then [] else c :: unescape rest
  | [] => []

/-- `serde_json` on a name without control characters. -/
def nameJson : SerdeJson (List Char) where
  toString name := '{' :: ("\"name\":".toList ++ '"' :: (name.flatMap escapeChar ++ '"' :: []) ++ ['}'])
  fromStr text := .ok (unescape (text.drop 9))

theorem stringBody_escaped (name : List Char) : StringBody (name.flatMap escapeChar) := by
  induction name with
  | nil => exact .nil
  | cons c name ih =>
    rw [List.flatMap_cons, escapeChar]
    split
    · exact .escape c ih
    · rename_i hc
      exact .plain c (fun h => hc (.inl h)) (fun h => hc (.inr h)) ih

theorem nameJson_documented : nameJson.Documented := by
  intro name
  have hkey : Balanced "\"name\":".toList := by
    have hbody : StringBody "name".toList := stringBody_escaped "name".toList
    exact .string hbody (.plain ':' (by decide) (by decide) (by decide) .nil)
  exact ⟨_, hkey.append (.string (stringBody_escaped name) .nil), rfl⟩

/-- Braces and quotes in the name, and IR with blank lines around it. -/
def twoPasses : Trace (List Char) where
  metadata := "de\x7bmo\"\x7d".toList
  snapshots := [⟨"initial".toList, "mir.module \x7b\x7d".toList⟩,
    ⟨"convert to llvm".toList, "\n\nllvm.module \x7b\n  --- crabbit\n\x7d\n".toList⟩]

theorem parseTrace_toText_twoPasses :
    ∃ back, parseTrace nameJson (twoPasses.toText nameJson) = .ok back ∧ twoPasses.Same back :=
  (parseTrace_toText_iff nameJson_documented twoPasses).mpr ⟨by rfl, by decide⟩

/-- One snapshot, of which a line of the IR is a marker. -/
def markedIr : Trace (List Char) where
  metadata := "demo".toList
  snapshots := [⟨"initial".toList, "a\n--- crabbit b ---\nc".toList⟩]

/-- The IR is cut in two there. -/
theorem markedIr_not_read_back :
    ¬ ∃ back, parseTrace nameJson (markedIr.toText nameJson) = .ok back ∧ markedIr.Same back := by
  rintro ⟨back, hback, hsame⟩
  obtain ⟨-, hplain⟩ := plain_of_same nameJson_documented hback hsame
  exact absurd hplain (by decide)

end Crabbit.PlironTrace
