import VecLang.Proofs.Source.Comments
import VecLang.Filetest.TestFile
import Mathlib.Data.List.DropRight
import Mathlib.Order.Bounds.Basic

/-!
# Test files

What a test file is made of (`Parts`): blank lines, the header, the program, and lines that hold
directives. Two things follow for every file that is accepted.

* `ofText_keeps_lines`: the program keeps the numbers of its lines, also when it is preprocessed.
* `accepted_checks_iff`: which accepted files check anything. A file is accepted for a line that
  begins with the word of a directive and a colon, but a line is read as a directive only if a blank
  follows the colon.
-/

namespace VecLang

open List

theorem Text.newline_not_mem_lines (s : Text) : ∀ line ∈ lines s, '\n' ∉ line := by
  have hpieces := newline_not_mem_splitLines s
  intro line hline
  rcases mem_append.1 hline with hline | hline
  · obtain ⟨piece, hpiece, rfl⟩ := mem_map.1 hline
    have hnone := hpieces piece (dropLast_subset _ hpiece)
    unfold dropReturn
    split
    · exact fun hmem => hnone (dropLast_subset _ hmem)
    · exact hnone
  · split at hline
    · cases hline
    · rw [mem_singleton.1 hline, getLastD_eq_getLast?,
        getLast?_eq_some_getLast (splitLines_ne_nil s)]
      exact hpieces _ (getLast_mem _)

namespace Filetest

variable {content line : Text} {t : TestCase} {front program expected lines : List Text}
  {header : Text}

/-! ### The parts of a file -/

/-- The lines expected at the end are as many as can be. -/
theorem splitExpected_append (lines : List Text) :
    (splitExpected lines).1 ++ (splitExpected lines).2 = lines ∧
      (∀ line ∈ (splitExpected lines).2, isExpectedLine line = true) ∧
      ∀ line ∈ (splitExpected lines).1.getLast?, isExpectedLine line = false := by
  have hsplit : lines.rdropWhile isExpectedLine ++ lines.rtakeWhile isExpectedLine = lines :=
    rdropWhile_append_rtakeWhile
  have hprogram : (splitExpected lines).1 = lines.rdropWhile isExpectedLine := by
    have hlength := congrArg length hsplit
    rw [length_append] at hlength
    change lines.take (lines.length - (lines.rtakeWhile isExpectedLine).length) = _
    rw [← hlength, Nat.add_sub_cancel]
    exact (prefix_iff_eq_take.1 ⟨_, hsplit⟩).symm
  refine ⟨hprogram ▸ hsplit, fun line => mem_rtakeWhile_imp, fun line hline => ?_⟩
  rw [hprogram] at hline
  obtain ⟨hne, rfl⟩ := mem_getLast?_eq_getLast hline
  exact Bool.eq_false_iff.2 (rdropWhile_last_not isExpectedLine lines hne)

/-- **The parts of a test file**, line by line, and what is made of them. -/
structure Parts (content : Text) (t : TestCase) (front : List Text) (header : Text)
    (program expected : List Text) : Prop where
  lines : Text.lines content = front ++ header :: (program ++ expected)
  blank : ∀ line ∈ front, Text.trim line = []
  headed : Text.trim header ≠ []
  command : Command.ofHeader? (Text.trim header) = some t.command
  marked : ∀ line ∈ expected, isExpectedLine line = true
  ended : ∀ line ∈ program.getLast?, isExpectedLine line = false
  source : t.source = Text.joinLines
    (replicate (front.length + 1) [] ++ program ++ replicate expected.length [])
  expects : t.expected = Text.joinLines (expected.map unmarked)
  directives : hasDirectives t.expected = true

/-- **A file that is accepted has these parts.** -/
theorem ofText_parts (h : TestCase.ofText content = .ok t) :
    ∃ front header program expected, Parts content t front header program expected := by
  unfold TestCase.ofText at h
  cases hplace : (Text.lines content).findIdx? (fun line => !(Text.trim line).isEmpty) with
  | none =>
    simp only [hplace] at h
    cases h
  | some place =>
  simp only [hplace] at h
  split at h
  · cases h
  next command hcommand =>
  split at h
  swap
  · cases h
  next hdirectives =>
  cases h
  obtain ⟨hlt, hheader, hblank⟩ := findIdx?_eq_some_iff_getElem.1 hplace
  obtain ⟨happend, hmarked, hunmarked⟩ := splitExpected_append ((Text.lines content).drop (place + 1))
  have hget : (Text.lines content).getD place [] = (Text.lines content)[place] := by
    rw [getD_eq_getElem?_getD, getElem?_eq_getElem hlt, Option.getD_some]
  have hfront : ((Text.lines content).take place).length = place :=
    length_take_of_le (Nat.le_of_lt hlt)
  refine ⟨(Text.lines content).take place, (Text.lines content)[place], _, _,
    ?_, fun line hline => ?_, by simpa using hheader, hget ▸ hcommand, hmarked, hunmarked,
    by rw [hfront], rfl, hdirectives⟩
  · rw [happend, ← drop_eq_getElem_cons hlt, take_append_drop]
  · obtain ⟨i, hi, rfl⟩ := mem_iff_getElem.1 hline
    rw [hfront] at hi
    have hi' := hblank i hi
    rw [getElem_take]
    simpa using hi'

/-! ### Lines and their numbers -/

/-- The line without the blanks around it and without its mark. -/
inductive Unmarks (line : Text) : Text → Prop
  | spaced {rest : Text} : Text.trim line = ';' :: ' ' :: rest → Unmarks line rest
  | bare {rest : Text} : Text.trim line = ';' :: rest → rest.head? ≠ some ' ' → Unmarks line rest
  | blank : Text.trim line = [] → Unmarks line []

theorem isExpectedLine_iff :
    isExpectedLine line = true ↔ Text.trim line = [] ∨ (Text.trim line).head? = some ';' := by
  simp [isExpectedLine]

theorem unmarks_unmarked (h : isExpectedLine line = true) : Unmarks line (unmarked line) := by
  unfold unmarked
  split
  · next rest htrim => exact .spaced htrim
  · next rest hspace htrim =>
    refine .bare htrim fun hhead => ?_
    obtain ⟨rest', rfl⟩ := head?_eq_some_iff.1 hhead
    exact hspace rest' rfl
  · next hspace hbare =>
    rcases isExpectedLine_iff.1 h with hnil | hhead
    · rw [hnil]
      exact .blank hnil
    · obtain ⟨rest, hrest⟩ := head?_eq_some_iff.1 hhead
      exact absurd hrest (hbare rest)

theorem newline_not_mem_unmarked (h : '\n' ∉ line) : '\n' ∉ unmarked line := by
  have htrim : '\n' ∉ Text.trim line := fun hmem => h (Text.trim_subset line hmem)
  unfold unmarked
  split
  · next rest hrest =>
    rw [hrest] at htrim
    exact fun hmem => htrim (.tail _ (.tail _ hmem))
  · next rest _ hrest =>
    rw [hrest] at htrim
    exact fun hmem => htrim (.tail _ hmem)
  · exact htrim

namespace Parts

variable (h : Parts content t front header program expected)
include h

theorem newline_not_mem : (∀ line ∈ program, '\n' ∉ line) ∧ ∀ line ∈ expected, '\n' ∉ line := by
  have hall := Text.newline_not_mem_lines content
  rw [h.lines] at hall
  refine ⟨fun line hline => hall line ?_, fun line hline => hall line ?_⟩ <;> simp [hline]

theorem splitLines_source : Text.splitLines t.source =
    replicate (front.length + 1) [] ++ program ++ replicate expected.length [] := by
  rw [h.source]
  refine Text.splitLines_joinLines (by simp) fun line hline => ?_
  simp only [mem_append, mem_replicate] at hline
  rcases hline with (⟨-, rfl⟩ | hline) | ⟨-, rfl⟩
  · exact not_mem_nil
  · exact h.newline_not_mem.1 line hline
  · exact not_mem_nil

theorem splitLines_expected : Text.splitLines t.expected = expected.map unmarked := by
  have hne : expected ≠ [] := by
    rintro rfl
    have hnone := h.directives
    rw [h.expects] at hnone
    cases hnone
  rw [h.expects]
  refine Text.splitLines_joinLines (by simpa using hne) fun line hline => ?_
  obtain ⟨marked, hmarked, rfl⟩ := mem_map.1 hline
  exact newline_not_mem_unmarked (h.newline_not_mem.2 marked hmarked)

theorem isLeast_header :
    IsLeast {i | ∃ line ∈ (Text.lines content)[i]?, Text.trim line ≠ []} front.length := by
  rw [h.lines]
  refine ⟨⟨header, by simp, h.headed⟩, fun i hi => ?_⟩
  obtain ⟨line, hline, htrim⟩ := hi
  by_contra hlt
  rw [getElem?_append_left (Nat.lt_of_not_le hlt)] at hline
  exact htrim (h.blank line (mem_of_getElem? hline))

theorem drop_stop :
    (Text.lines content).drop (front.length + 1 + program.length) = expected := by
  rw [h.lines, ← cons_append, ← append_assoc]
  exact drop_left' (by simp; omega)

theorem isLeast_stop : IsLeast {k | front.length < k ∧ ∀ line ∈ (Text.lines content).drop k,
    Text.trim line = [] ∨ (Text.trim line).head? = some ';'} (front.length + 1 + program.length) := by
  refine ⟨⟨by omega, fun line hline => ?_⟩, fun k hk => ?_⟩
  · rw [h.drop_stop] at hline
    exact isExpectedLine_iff.1 (h.marked line hline)
  · obtain ⟨hlt, hall⟩ := hk
    by_contra hstop
    rw [h.lines] at hall
    -- the last line of the program would belong to the lines at the end
    obtain ⟨start, last, rfl⟩ : ∃ start last, program = start ++ [last] := by
      refine (eq_nil_or_concat' program).resolve_left ?_
      rintro rfl
      exact hstop (Nat.succ_le_of_lt hlt)
    rw [length_append, length_singleton] at hstop
    have hlines : front ++ header :: (start ++ [last] ++ expected) =
        (front ++ header :: start) ++ last :: expected := by simp
    rw [hlines, drop_append_of_le_length (by simp; omega)] at hall
    have hlast := isExpectedLine_iff.2 (hall last (by simp))
    rw [h.ended last (by simp)] at hlast
    cases hlast

theorem splitLines_source_getElem? {i : Nat} (hi : i < (Text.lines content).length) :
    (Text.splitLines t.source)[i]? =
      if front.length < i ∧ i < front.length + 1 + program.length then (Text.lines content)[i]?
      else some [] := by
  rw [h.splitLines_source]
  rw [h.lines] at hi ⊢
  simp only [length_append, length_cons] at hi
  grind

end Parts

open Macro Comment

/-- **Test files keep their line numbers.** The header is the first line that is not blank, and
the lines at the end begin at the first place behind it from which on every line is blank or has a
mark. The program has as many lines as the file: those between the two stand at their numbers and
all others are empty. What is expected are the marked lines without their marks. When the program
is preprocessed, each line is made of the line with its number. -/
theorem ofText_keeps_lines (h : TestCase.ofText content = .ok t) : ∃ header stop,
    IsLeast {i | ∃ line ∈ (Text.lines content)[i]?, Text.trim line ≠ []} header ∧
      IsLeast {k | header < k ∧ ∀ line ∈ (Text.lines content).drop k,
        Text.trim line = [] ∨ (Text.trim line).head? = some ';'} stop ∧
      (Text.splitLines t.source).length = (Text.lines content).length ∧
      (∀ i < (Text.lines content).length, (Text.splitLines t.source)[i]? =
        if header < i ∧ i < stop then (Text.lines content)[i]? else some []) ∧
      List.Forall₂ Unmarks ((Text.lines content).drop stop) (Text.splitLines t.expected) ∧
      ∀ text, preprocess (String.ofList t.source) = .ok text →
        (Text.splitLines text.toList).length = (Text.lines content).length ∧
          ∃ stripped, LineByLine t.source stripped ∧
            ∀ i line, (Text.splitLines stripped)[i]? = some line →
              ∃ result, (Text.splitLines text.toList)[i]? = some result ∧
                BecomesLine ((Text.splitLines stripped).take i).reverse line result := by
  obtain ⟨front, header, program, expected, hparts⟩ := ofText_parts h
  have hlength : (Text.splitLines t.source).length = (Text.lines content).length := by
    rw [hparts.splitLines_source, hparts.lines]
    simp only [length_append, length_cons, length_replicate]
    omega
  refine ⟨_, _, hparts.isLeast_header, hparts.isLeast_stop, hlength,
    fun i hi => hparts.splitLines_source_getElem? hi, ?_, fun text htext => ?_⟩
  · rw [hparts.drop_stop, hparts.splitLines_expected, forall₂_map_right_iff, forall₂_same]
    exact fun line hline => unmarks_unmarked (hparts.marked line hline)
  · obtain ⟨stripped, hstrip, hlines, hkept⟩ := preprocess_eq_ok htext
    rw [String.toList_ofList] at hstrip
    have hcode := (strip_eq_ok_iff.1 hstrip).lineByLine
    refine ⟨?_, stripped, hcode, fun i line hi => ?_⟩
    · rw [hkept, ← hcode.length_eq, hlength]
    · have hline := expandLines_line holds_nil hlines i line hi
      rw [append_nil] at hline
      exact hline

/-- A program with a marked line inside a comment, and lines at the end with and without text. -/
def markedText : String :=
  "\n test lower \nfloat a; /* b\n; c */ a\nfloat x;\n\n; note\n  ;check: main"

theorem ofText_keeps_lines_markedText : ∃ t, TestCase.ofText markedText.toList = .ok t ∧
    (Text.splitLines t.source).length = 8 ∧
    (Text.splitLines t.source)[3]? = some "; c */ a".toList := by
  have h : TestCase.ofText markedText.toList =
      .ok { command := .lower, source := "\n\nfloat a; /* b\n; c */ a\nfloat x;\n\n\n".toList,
            expected := "\nnote\ncheck: main".toList } := by
    decide +kernel
  obtain ⟨header, stop, -, -, hlength, -⟩ := ofText_keeps_lines h
  have hlines : (Text.lines markedText.toList).length = 8 := by decide +kernel
  exact ⟨_, h, hlength.trans hlines, by decide +kernel⟩

/-! ### Lines that are read as directives -/

/-- **The line holds a directive**: not inside a word one of the words for it, a colon and a
blank. -/
def HoldsDirective (line : Text) : Prop :=
  ∃ front word c rest, word ∈ directiveWords ∧ line = front ++ (word.toList ++ ':' :: c :: rest) ∧
    Text.isBlank c = true ∧ front.getLast?.any Text.isWordLetter = false

theorem directiveAt?_isSome (s : Text) : (directiveAt? s).isSome = true ↔
    ∃ word ∈ directiveWords, ∃ c rest, s = word.toList ++ ':' :: c :: rest ∧ Text.isBlank c = true := by
  unfold directiveAt?
  rw [findSome?_isSome_iff]
  refine exists_congr fun word => and_congr_right fun _ => ?_
  rw [Option.isSome_ite, Bool.and_eq_true, isPrefixOf_iff_prefix]
  constructor
  · rintro ⟨⟨rest, rfl⟩, hblank⟩
    rw [drop_left] at hblank
    cases rest with
    | nil => cases hblank
    | cons c rest => exact ⟨c, rest, by simp, hblank⟩
  · rintro ⟨c, rest, rfl, hblank⟩
    have happend : word.toList ++ ':' :: c :: rest = (word.toList ++ [':']) ++ c :: rest := by simp
    rw [happend, drop_left]
    exact ⟨prefix_append _ _, hblank⟩

/-- Every word starts with a letter, so that a boundary in front of it is one behind no letter. -/
theorem isWordBoundary_of_word {before : Option Char} {word : String} {c : Char} {s rest : Text}
    (hword : word ∈ directiveWords) (hs : c :: s = word.toList ++ rest) :
    Text.isWordBoundary before (some c) = true ↔ before.any Text.isWordLetter = false := by
  have hletters : ∀ w ∈ directiveWords, w.toList.head?.any Text.isWordLetter = true := by decide
  have hc : Text.isWordLetter c = true := by
    have hhead := hletters word hword
    cases hw : word.toList with
    | nil =>
      rw [hw] at hhead
      cases hhead
    | cons d w =>
      rw [hw] at hhead hs
      obtain ⟨rfl, -⟩ := cons.inj hs
      exact hhead
  unfold Text.isWordBoundary
  rw [Option.any_some, hc]
  cases before.any Text.isWordLetter <;> decide

/-- **The first directive is found if there is one**, whatever stands in front of the text. -/
theorem findDirective?_isSome (before : Option Char) (s : Text) :
    (findDirective? before s).isSome = true ↔
      ∃ front word c rest, word ∈ directiveWords ∧ s = front ++ (word.toList ++ ':' :: c :: rest) ∧
        Text.isBlank c = true ∧ (front.getLast?.or before).any Text.isWordLetter = false := by
  induction s generalizing before with
  | nil => simp [findDirective?]
  | cons ch s ih =>
    have hhere : Text.isWordBoundary before (some ch) = true ∧ (directiveAt? (ch :: s)).isSome = true ↔
        ∃ word c rest, word ∈ directiveWords ∧ ch :: s = word.toList ++ ':' :: c :: rest ∧
          Text.isBlank c = true ∧ before.any Text.isWordLetter = false := by
      rw [directiveAt?_isSome]
      constructor
      · rintro ⟨hbefore, word, hword, c, rest, hs, hc⟩
        exact ⟨word, c, rest, hword, hs, hc, (isWordBoundary_of_word hword hs).1 hbefore⟩
      · rintro ⟨word, c, rest, hword, hs, hc, hbefore⟩
        exact ⟨(isWordBoundary_of_word hword hs).2 hbefore, word, hword, c, rest, hs, hc⟩
    have hstep : (findDirective? before (ch :: s)).isSome = true ↔
        (Text.isWordBoundary before (some ch) = true ∧ (directiveAt? (ch :: s)).isSome = true) ∨
          (findDirective? (some ch) s).isSome = true := by
      rw [findDirective?]
      cases Text.isWordBoundary before (some ch) <;> cases directiveAt? (ch :: s) <;> simp
    rw [hstep, hhere, ih]
    constructor
    · rintro (⟨word, c, rest, hword, hs, hc, hbefore⟩ | ⟨front, word, c, rest, hword, rfl, hc, hlast⟩)
      · exact ⟨[], word, c, rest, hword, hs, hc, hbefore⟩
      · refine ⟨ch :: front, word, c, rest, hword, rfl, hc, ?_⟩
        cases hfront : front.getLast? <;> simpa [getLast?_cons, hfront] using hlast
    · rintro ⟨front, word, c, rest, hword, hs, hc, hlast⟩
      cases front with
      | nil => exact .inl ⟨word, c, rest, hword, hs, hc, hlast⟩
      | cons d front =>
        obtain ⟨rfl, rfl⟩ := cons.inj hs
        refine .inr ⟨front, word, c, rest, hword, rfl, hc, ?_⟩
        cases hfront : front.getLast? <;> simpa [getLast?_cons, hfront] using hlast

/-- **A line is read as a directive exactly if it holds one.** -/
theorem ofLine?_eq_none : Directive.ofLine? line = .ok none ↔ ¬ HoldsDirective line := by
  have hfound : (findDirective? none line).isSome = true ↔ HoldsDirective line := by
    rw [findDirective?_isSome]
    simp only [Option.or_none]
    rfl
  rw [← hfound]
  unfold Directive.ofLine?
  cases findDirective? none line with
  | none => simp
  | some found =>
    refine iff_of_false (fun h => ?_) (by simp)
    simp only at h
    split at h <;> obtain ⟨_, -, h⟩ := Except.bind_eq_ok.1 h <;> cases h

/-- **There are no directives if no line holds one**, and a line that cannot be read holds one. -/
theorem directives_eq_nil {expected : Text} : directives expected = .ok [] ↔
    ∀ line ∈ (Text.lines expected).map Text.trim, ¬ HoldsDirective line := by
  unfold directives
  generalize (Text.lines expected).map Text.trim = lines
  induction lines with
  | nil => exact iff_of_true rfl (by simp)
  | cons line lines ih =>
    rw [forall_mem_cons, ← ih, ← ofLine?_eq_none, mapM_cons]
    constructor
    · intro h
      obtain ⟨all, hall, h⟩ := Except.bind_eq_ok.1 h
      obtain ⟨first, hfirst, hall⟩ := Except.bind_eq_ok.1 hall
      obtain ⟨found, hfound, hall⟩ := Except.bind_eq_ok.1 hall
      cases hall
      have hnil : (first :: found).filterMap id = [] := Except.ok.inj h
      cases first with
      | none => exact ⟨Except.mapError_eq_ok.1 hfirst, Except.bind_eq_ok.2 ⟨found, hfound, congrArg _ hnil⟩⟩
      | some d => cases hnil
    · rintro ⟨hfirst, h⟩
      obtain ⟨found, hfound, h⟩ := Except.bind_eq_ok.1 h
      rw [hfirst, hfound]
      exact h

/-- **Which accepted test files check anything.** A file is accepted for a line that begins with
one of the words and a colon. The lines that are read as directives are those that hold one, and
so a file has directives exactly if one of its lines does, as it is when a blank follows the colon
of a line that begins so. A file without directives passes whatever its program becomes. -/
theorem accepted_checks_iff (h : TestCase.ofText content = .ok t) :
    (∃ line ∈ (Text.lines t.expected).map Text.trim, ∃ word ∈ directiveWords,
        word.toList ++ [':'] <+: line) ∧
      (∀ line, Directive.ofLine? line ≠ .ok none ↔ HoldsDirective line) ∧
      (directives t.expected ≠ .ok [] ↔
        ∃ line ∈ (Text.lines t.expected).map Text.trim, HoldsDirective line) ∧
      (∀ line ∈ (Text.lines t.expected).map Text.trim, ∀ word ∈ directiveWords, ∀ c rest,
        line = word.toList ++ ':' :: c :: rest → Text.isBlank c = true →
        directives t.expected ≠ .ok []) ∧
      (directives t.expected = .ok [] →
        ∀ filename, run content filename = (t.outcome filename).map fun _ => ()) := by
  have hsome : directives t.expected ≠ .ok [] ↔
      ∃ line ∈ (Text.lines t.expected).map Text.trim, HoldsDirective line := by
    rw [Ne, directives_eq_nil]
    simp only [not_forall, not_not, exists_prop]
  refine ⟨?_, fun line => (not_congr ofLine?_eq_none).trans not_not, hsome,
    fun line hline word hword c rest heq hc => ?_, fun hnone filename => ?_⟩
  · obtain ⟨front, header, program, expected, hparts⟩ := ofText_parts h
    obtain ⟨line, hline, hbegins⟩ := any_eq_true.1 hparts.directives
    obtain ⟨word, hword, hprefix⟩ := any_eq_true.1 hbegins
    exact ⟨_, mem_map_of_mem hline, word, hword, isPrefixOf_iff_prefix.1 hprefix⟩
  · exact hsome.2 ⟨line, hline, [], word, c, rest, hword, heq, hc, rfl⟩
  · have hcheck : ∀ actual, check actual t.expected = .ok () := by
      intro actual
      unfold check
      rw [hnone]
      rfl
    unfold run
    rw [h]
    change (t.outcome filename >>= _) = _
    cases t.outcome filename with
    | error e => rfl
    | ok actual =>
      change (check actual.toList t.expected).mapError _ = _
      rw [hcheck]
      rfl

/-- A line that begins with one word and a colon, and holds a directive with another. -/
def mixedText : String := "test error\n)\n; check:a not: b"

theorem accepted_checks_mixedText : ∃ t, TestCase.ofText mixedText.toList = .ok t ∧
    directives t.expected ≠ .ok [] := by
  have h : TestCase.ofText mixedText.toList =
      .ok { command := .error, source := "\n)\n".toList, expected := "check:a not: b".toList } := by
    decide +kernel
  refine ⟨_, h, (accepted_checks_iff h).2.2.1.2 ⟨"check:a not: b".toList, by decide +kernel, ?_⟩⟩
  exact ⟨"check:a ".toList, "not", ' ', ['b'], by decide, rfl, rfl, by decide⟩

/-- The one line of what is expected has no blank behind its colon. -/
def unspacedText : String := "test error\n)\n; check:absent"

/-- **A test that passes with no check at all.** -/
theorem unspaced_passes_unchecked :
    (∃ t, TestCase.ofText unspacedText.toList = .ok t ∧ directives t.expected = .ok []) ∧
      run unspacedText.toList "test.mathl" = .ok () := by
  have h : TestCase.ofText unspacedText.toList =
      .ok { command := .error, source := "\n)\n".toList, expected := "check:absent".toList } := by
    decide +kernel
  exact ⟨⟨_, h, by decide +kernel⟩, by decide +kernel⟩

end Filetest

end VecLang
