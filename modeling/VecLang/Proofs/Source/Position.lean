import Mathlib.Data.List.Induction
import Mathlib.Data.List.SplitBy
import VecLang.Proofs.Steps
import VecLang.Source.Macro

/-!
# Positions and lines of a source text

A position is computed in two ways: from the characters in front of it, and from the offsets
at which the lines begin. Both agree on the line at every character boundary, and on the
column where the line is ASCII up to there. Preprocessing keeps the number of lines, so that
a line of the preprocessed text is one of the source.

* `LineIndex.pos_append`, `Pos.ofOffset_append`: the two positions of a boundary.
* `LineIndex.pos_eq_ofOffset`: where they are the same.
* `positions_agree`: **how they agree at every boundary.**
* `Macro.length_splitLines_preprocess`: **preprocessing keeps the number of lines.**
-/

namespace VecLang

open List

namespace Text

variable {s t : Text} {c : Char}

@[simp] theorem byteLength_nil : byteLength [] = 0 := rfl

@[simp] theorem byteLength_cons (c : Char) (s : Text) :
    byteLength (c :: s) = c.utf8Size + byteLength s := rfl

@[simp] theorem byteLength_append (s t : Text) :
    byteLength (s ++ t) = byteLength s + byteLength t := by
  induction s with
  | nil => simp
  | cons c s ih => rw [cons_append, byteLength_cons, byteLength_cons, ih, Nat.add_assoc]

theorem takeBytes_append (s t : Text) : takeBytes (byteLength s) (s ++ t) = s := by
  induction s with
  | nil =>
    cases t with
    | nil => rfl
    | cons c t =>
      rw [nil_append, byteLength_nil, takeBytes,
        if_neg (Nat.not_le.2 (Char.utf8Size_pos c))]
  | cons c s ih =>
    rw [cons_append, takeBytes, byteLength_cons, if_pos (Nat.le_add_right _ _),
      Nat.add_sub_cancel_left, ih]

/-- The text is ASCII: each of its characters is one byte. -/
def IsAscii (s : Text) : Prop := ∀ c ∈ s, c.val ≤ 127

instance (s : Text) : Decidable (IsAscii s) := decidableBAll _ s

theorem IsAscii.append (hs : IsAscii s) (ht : IsAscii t) : IsAscii (s ++ t) :=
  forall_mem_append.2 ⟨hs, ht⟩

theorem length_le_byteLength (s : Text) : s.length ≤ byteLength s := by
  induction s with
  | nil => exact Nat.le_refl _
  | cons c s ih =>
    have := Char.utf8Size_pos c
    rw [length_cons, byteLength_cons]
    omega

/-- **Bytes are as many as characters just in ASCII texts.** -/
theorem byteLength_eq_length_iff : byteLength s = s.length ↔ IsAscii s := by
  induction s with
  | nil => exact ⟨fun _ c hc => absurd hc not_mem_nil, fun _ => rfl⟩
  | cons c s ih =>
    have hpos := Char.utf8Size_pos c
    have hle := length_le_byteLength s
    unfold IsAscii at ih ⊢
    rw [forall_mem_cons, ← Char.utf8Size_eq_one_iff, ← ih, byteLength_cons, length_cons]
    omega

/-- The characters since the last newline, the last one first. -/
def lastLine (s : Text) : Text := s.reverse.takeWhile (· != '\n')

theorem lastLine_concat (s : Text) (c : Char) :
    lastLine (s ++ [c]) = if c = '\n' then [] else c :: lastLine s := by
  unfold lastLine
  rw [reverse_concat, takeWhile_cons]
  by_cases hc : c = '\n'
  · simp [hc]
  · simp [hc]

theorem IsAscii.lastLine (h : IsAscii s) : IsAscii (lastLine s) := fun c hc =>
  h c (mem_reverse.1 ((takeWhile_sublist _).subset hc))

end Text

namespace LineIndex

open Text

theorem startsAfter_append (first : Nat) (s t : Text) :
    startsAfter first (s ++ t) =
      startsAfter first s ++ startsAfter (first + byteLength s) t := by
  induction s generalizing first with
  | nil => rfl
  | cons c s ih =>
    rw [cons_append, startsAfter, startsAfter, byteLength_cons, ← Nat.add_assoc]
    simp only [ih]
    split <;> rfl

theorem startsAfter_bounds (first : Nat) (s : Text) :
    ∀ n ∈ startsAfter first s, first < n ∧ n ≤ first + byteLength s := by
  induction s generalizing first with
  | nil => intro n hn; cases hn
  | cons c s ih =>
    have hpos := Char.utf8Size_pos c
    have hrest : ∀ n ∈ startsAfter (first + c.utf8Size) s,
        first < n ∧ n ≤ first + (c.utf8Size + byteLength s) := by
      intro n hn
      have := ih _ n hn
      omega
    rw [startsAfter, byteLength_cons]
    split
    · exact forall_mem_cons.2 ⟨by omega, hrest⟩
    · exact hrest

theorem sorted_startsAfter (first : Nat) (s : Text) : (startsAfter first s).Pairwise (· < ·) := by
  induction s generalizing first with
  | nil => exact .nil
  | cons c s ih =>
    rw [startsAfter]
    split
    · exact .cons (fun n hn => (startsAfter_bounds _ s n hn).1) (ih _)
    · exact ih _

theorem sorted_starts (s : Text) : (ofText s).starts.Pairwise (· < ·) :=
  .cons (fun n hn => (startsAfter_bounds 0 s n hn).1) (sorted_startsAfter 0 s)

/-- The lines that begin up to a boundary: the last of them begins as many bytes in front of it
as the text since then has. -/
theorem exists_starts (s : Text) : ∃ others last, 0 :: startsAfter 0 s = others ++ [last] ∧
    others.length = s.count '\n' ∧ last + byteLength (lastLine s) = byteLength s := by
  induction s using reverseRecOn with
  | nil => exact ⟨[], 0, rfl, rfl, rfl⟩
  | append_singleton s c ih =>
    obtain ⟨others, last, hstarts, hcount, hlast⟩ := ih
    rw [startsAfter_append, ← cons_append, hstarts, lastLine_concat, byteLength_append,
      count_append]
    -- a newline begins a new last line, and any other character makes the last one longer
    by_cases hc : c = '\n'
    · subst hc
      exact ⟨others ++ [last], byteLength s + 1, by simp [startsAfter]; rfl, by simp [hcount],
        by simp; rfl⟩
    · refine ⟨others, last, by simp [startsAfter, hc], by simp [hcount, hc], ?_⟩
      simp only [if_neg hc, byteLength_cons, byteLength_nil]
      omega

/-- **A search in increasing numbers** hits the last one that is not greater, or stops behind it. -/
theorem search_append {others behind : List Nat} {last o : Nat}
    (hsorted : (others ++ last :: behind).Pairwise (· < ·)) (hlast : last ≤ o)
    (hbehind : ∀ n ∈ behind, o < n) : search ⟨others ++ last :: behind⟩ o =
      if last = o then .ok others.length else .error (others.length + 1) := by
  have hothers : ∀ n ∈ others, decide (n < o) = true := fun n hn =>
    decide_eq_true (Nat.lt_of_lt_of_le
      ((pairwise_append.1 hsorted).2.2 n hn last (.head _)) hlast)
  unfold search
  rw [takeWhile_append_of_pos hothers, takeWhile_cons]
  by_cases hhit : last = o
  · simp [hhit]
  · have hstop : behind.takeWhile (fun n => decide (n < o)) = [] := by
      cases behind with
      | nil => rfl
      | cons n rest =>
        have := hbehind n (.head _)
        rw [takeWhile_cons, if_neg (by rw [decide_eq_true_eq]; omega)]
    have hmiss : (others ++ last :: behind)[others.length + 1]? ≠ some o := by
      rw [getElem?_append_right (Nat.le_add_right _ 1), Nat.add_sub_cancel_left,
        getElem?_cons_succ]
      exact fun hget => Nat.lt_irrefl o (hbehind o (mem_of_getElem? hget))
    simp [hhit, hstop, show last < o by omega, hmiss]

/-- **A search for a boundary**: where its line begins, and what the search answers. -/
theorem search_boundary (s t : Text) : ∃ start,
    (ofText (s ++ t)).starts[s.count '\n']? = some start ∧
      start + byteLength (lastLine s) = byteLength s ∧
      (ofText (s ++ t)).search (byteLength s) =
        if start = byteLength s then .ok (s.count '\n') else .error (s.count '\n' + 1) := by
  obtain ⟨others, last, hstarts, hcount, hlast⟩ := exists_starts s
  have hall : ofText (s ++ t) = ⟨others ++ last :: startsAfter (byteLength s) t⟩ := by
    rw [ofText, startsAfter_append, Nat.zero_add, ← cons_append, hstarts, append_assoc]
    rfl
  have hsorted := sorted_starts (s ++ t)
  rw [hall] at hsorted ⊢
  refine ⟨last, ?_, hlast, ?_⟩
  · rw [← hcount, getElem?_append_right (Nat.le_refl _), Nat.sub_self]
    rfl
  · rw [search_append hsorted (by omega) fun n hn => (startsAfter_bounds _ t n hn).1, hcount]

/-- **The position of a boundary by the index**: the column counts bytes. -/
theorem pos_append (s t : Text) : (ofText (s ++ t)).pos (byteLength s) =
    { line := s.count '\n', col := byteLength (lastLine s), offset := byteLength s } := by
  obtain ⟨start, hget, hstart, hsearch⟩ := search_boundary s t
  have hline : (ofText (s ++ t)).lineOf (byteLength s) = s.count '\n' := by
    unfold lineOf
    rw [hsearch]
    by_cases hhit : start = byteLength s
    · rw [if_pos hhit]
    · rw [if_neg hhit]
      rfl
  simp only [pos, hline, getD_eq_getElem?_getD, hget, Option.getD_some, Pos.mk.injEq, and_true,
    true_and]
  omega

end LineIndex

/-- **The position of a boundary by the text in front of it**: the column counts characters. -/
theorem Pos.ofOffset_append (s t : Text) : Pos.ofOffset (s ++ t) (Text.byteLength s) =
    { line := s.count '\n', col := (Text.lastLine s).length, offset := Text.byteLength s } := by
  unfold Pos.ofOffset Text.lastLine
  simp only [Text.takeBytes_append, Text.byteLength_append, Nat.min_eq_left (Nat.le_add_right _ _)]

/-- **The two positions of a boundary are the same where the text in front of it is ASCII.** -/
theorem LineIndex.pos_eq_ofOffset {s : Text} (h : s.IsAscii) (t : Text) :
    (LineIndex.ofText (s ++ t)).pos (Text.byteLength s) =
      Pos.ofOffset (s ++ t) (Text.byteLength s) := by
  rw [pos_append, Pos.ofOffset_append, Text.byteLength_eq_length_iff.2 h.lastLine]

/-- The offset is that of a boundary between two characters of the text, or of one of its ends. -/
def Text.IsBoundary (source : Text) (offset : Nat) : Prop :=
  ∃ s r, source = s ++ r ∧ offset = s.byteLength

theorem Text.IsBoundary.le {source : Text} {offset : Nat} (h : source.IsBoundary offset) :
    offset ≤ source.byteLength := by
  obtain ⟨s, r, rfl, rfl⟩ := h
  rw [Text.byteLength_append]
  exact Nat.le_add_right _ _

/-- **The two positions of a byte agree** at every boundary of every text. The lines begin in
increasing order, so the search is defined; neither the step back to the line before nor the
distance from its start goes below zero; line and offset are the same; the column by the index
counts the bytes since the last newline, and is the other one just if these are ASCII. -/
theorem positions_agree {source : Text} {o : Nat} (ho : source.IsBoundary o) :
    (LineIndex.ofText source).starts.Pairwise (· < ·) ∧
      (∀ next, (LineIndex.ofText source).search o = .error next → 0 < next) ∧
      (∃ start, (LineIndex.ofText source).starts[((LineIndex.ofText source).pos o).line]? =
        some start ∧ start ≤ o) ∧
      ((LineIndex.ofText source).pos o).line = (Pos.ofOffset source o).line ∧
      ((LineIndex.ofText source).pos o).offset = (Pos.ofOffset source o).offset ∧
      ((LineIndex.ofText source).pos o).col =
        Text.byteLength (Text.lastLine (Text.takeBytes o source)) ∧
      (((LineIndex.ofText source).pos o).col = (Pos.ofOffset source o).col ↔
        Text.IsAscii (Text.lastLine (Text.takeBytes o source))) := by
  obtain ⟨s, t, rfl, rfl⟩ := ho
  obtain ⟨start, hget, hstart, hsearch⟩ := LineIndex.search_boundary s t
  rw [LineIndex.pos_append, Pos.ofOffset_append, Text.takeBytes_append]
  refine ⟨LineIndex.sorted_starts _, fun next hnext => ?_, ⟨start, hget, by omega⟩, rfl, rfl, rfl,
    Text.byteLength_eq_length_iff⟩
  rw [hsearch] at hnext
  split at hnext
  · cases hnext
  · cases hnext
    exact Nat.succ_pos _

theorem positions_agree_accented :
    Text.IsBoundary "a\né日x".toList 7 ∧ (LineIndex.ofText "a\né日x".toList).pos 7 = ⟨1, 5, 7⟩ ∧
      (Pos.ofOffset "a\né日x".toList 7).line = 1 ∧
      ¬ Text.IsAscii (Text.lastLine (Text.takeBytes 7 "a\né日x".toList)) := by
  have hboundary : Text.IsBoundary "a\né日x".toList 7 :=
    ⟨"a\né日".toList, "x".toList, by decide, by decide⟩
  obtain ⟨-, -, -, hline, -, -, hcol⟩ := positions_agree hboundary
  exact ⟨hboundary, by decide, hline.symm.trans (by decide), mt hcol.2 (by decide)⟩

namespace Text

variable {line : Text} {c : Char}

theorem splitLines_cons_of_ne (hc : c ≠ '\n') (s : Text) : ∃ line rest,
    splitLines s = line :: rest ∧ splitLines (c :: s) = (c :: line) :: rest := by
  cases hs : splitLines s with
  | nil => exact absurd hs (splitLines_ne_nil s)
  | cons line rest =>
    refine ⟨line, rest, rfl, ?_⟩
    rw [splitLines, if_neg hc, hs]

theorem length_splitLines (s : Text) : (splitLines s).length = s.count '\n' + 1 := by
  induction s with
  | nil => rfl
  | cons c s ih =>
    by_cases hc : c = '\n'
    · rw [splitLines, if_pos hc, length_cons, ih, hc, count_cons_self]
    · obtain ⟨line, rest, hs, hcons⟩ := splitLines_cons_of_ne hc s
      rw [hcons, count_cons_of_ne hc, ← ih, hs, length_cons, length_cons]

theorem newline_not_mem_splitLines (s : Text) : ∀ line ∈ splitLines s, '\n' ∉ line := by
  induction s with
  | nil => simp [splitLines]
  | cons c s ih =>
    by_cases hc : c = '\n'
    · rw [splitLines, if_pos hc]
      exact forall_mem_cons.2 ⟨not_mem_nil, ih⟩
    · obtain ⟨line, rest, hs, hcons⟩ := splitLines_cons_of_ne hc s
      rw [hs, forall_mem_cons] at ih
      rw [hcons]
      refine forall_mem_cons.2 ⟨fun hmem => ?_, ih.2⟩
      rcases mem_cons.1 hmem with hc' | hmem
      · exact hc hc'.symm
      · exact ih.1 hmem

theorem trim_subset (s : Text) : trim s ⊆ s := by
  intro c hc
  unfold trim trimEnd trimStart at hc
  have hc := (dropWhile_sublist _).subset (mem_reverse.1 hc)
  exact (dropWhile_sublist _).subset (mem_reverse.1 hc)

theorem splitLines_of_not_mem (h : '\n' ∉ line) : splitLines line = [line] := by
  induction line with
  | nil => rfl
  | cons c line ih =>
    obtain ⟨hc, hline⟩ := not_or.1 (mt mem_cons.2 h)
    rw [splitLines, if_neg fun hc' => hc hc'.symm, ih hline]

theorem splitLines_append_newline (h : '\n' ∉ line) (rest : Text) :
    splitLines (line ++ '\n' :: rest) = line :: splitLines rest := by
  induction line with
  | nil => rfl
  | cons c line ih =>
    obtain ⟨hc, hline⟩ := not_or.1 (mt mem_cons.2 h)
    rw [cons_append, splitLines, if_neg fun hc' => hc hc'.symm, ih hline]

theorem splitLines_joinLines {lines : List Text} (hne : lines ≠ [])
    (h : ∀ line ∈ lines, '\n' ∉ line) : splitLines (joinLines lines) = lines := by
  induction lines with
  | nil => exact absurd rfl hne
  | cons line rest ih =>
    obtain ⟨hfirst, hrest⟩ := forall_mem_cons.1 h
    cases rest with
    | nil => exact splitLines_of_not_mem hfirst
    | cons next rest =>
      have hne' : next :: rest ≠ [] := cons_ne_nil _ _
      rw [joinLines_cons hne', splitLines_append_newline hfirst, ih hne' hrest]

end Text

theorem Comment.count_stripFrom {mode : Mode} {offset : Nat} {s t : Text}
    (h : stripFrom mode offset s = .ok t) : t.count '\n' = s.count '\n' := by
  fun_induction stripFrom mode offset s generalizing t with
  | case1 => cases h
  | case2 => cases h; rfl
  | case3 offset rest ih => rw [ih h]; rfl
  | case4 offset rest ih => rw [ih h]; rfl
  | case5 offset c rest _ _ ih =>
    obtain ⟨u, hu, h⟩ := Except.bind_eq_ok.1 h
    cases h
    rw [count_cons, count_cons, ih hu]
  | case6 offset rest ih =>
    obtain ⟨u, hu, h⟩ := Except.bind_eq_ok.1 h
    cases h
    rw [count_cons_self, count_cons_self, ih hu]
  | case7 offset c rest hc ih =>
    rw [ih h, count_cons_of_ne hc]
  | case8 opened offset rest ih =>
    obtain ⟨u, hu, h⟩ := Except.bind_eq_ok.1 h
    cases h
    rw [count_cons_of_ne (by decide), ih hu]
    rfl
  | case9 opened offset rest ih =>
    obtain ⟨u, hu, h⟩ := Except.bind_eq_ok.1 h
    cases h
    rw [count_cons_self, count_cons_self, ih hu]
  | case10 opened offset c rest _ hc ih =>
    rw [ih h, count_cons_of_ne hc]

namespace Macro

variable {defs : Defs} {line : Text}

/-- No value of a macro holds a newline. -/
def OnOneLine (defs : Defs) : Prop := ∀ name value, defs.get? name = some value → '\n' ∉ value

theorem newline_not_mem_expand (hdefs : OnOneLine defs) (hline : '\n' ∉ line) :
    '\n' ∉ expand defs line := by
  intro hmem
  obtain ⟨run, hrun, hmem⟩ := mem_flatMap.1 hmem
  have hsame : '\n' ∉ run := by
    intro hnl
    refine hline ?_
    rw [← flatten_splitBy (fun c d => Text.isWordChar c == Text.isWordChar d) line]
    exact mem_flatten.2 ⟨run, hrun, hnl⟩
  unfold expandRun at hmem
  split at hmem
  · cases hget : defs.get? (String.ofList run) with
    | none =>
      rw [hget] at hmem
      exact hsame hmem
    | some value =>
      rw [hget] at hmem
      exact hdefs _ value hget hmem
  · exact hsame hmem

theorem directive?_subset {text : Text} (h : directive? line = some text) : text ⊆ line := by
  unfold directive? at h
  split at h
  · next rest hrest =>
    cases h
    intro c hc
    refine (dropWhile_sublist isSpace).subset ?_
    rw [hrest]
    exact .tail _ ((dropWhile_sublist isSpace).subset hc)
  · cases h

theorem readDefine_subset {text value : Text} {name : String}
    (h : readDefine text = .ok (name, value)) : value ⊆ text := by
  unfold readDefine at h
  simp only at h
  split at h
  · cases h
  split at h
  · cases h
  split at h
  · cases h
  cases h
  intro c hc
  have hc := (dropWhile_sublist _).subset (Text.trim_subset _ hc)
  have hc := (dropWhile_sublist _).subset hc
  exact (dropWhile_sublist _).subset hc

/-- **Each line gives one line.** -/
theorem expandLines_lines {offset : Nat} {lines out : List Text} (hdefs : OnOneLine defs)
    (hlines : ∀ line ∈ lines, '\n' ∉ line) (h : expandLines defs offset lines = .ok out) :
    out.length = lines.length ∧ ∀ line ∈ out, '\n' ∉ line := by
  induction lines generalizing defs offset out with
  | nil =>
    cases h
    exact ⟨rfl, fun _ hm => by cases hm⟩
  | cons line lines ih =>
    obtain ⟨hline, hrest⟩ := forall_mem_cons.1 hlines
    rw [expandLines] at h
    split at h
    · obtain ⟨others, hothers, h⟩ := Except.bind_eq_ok.1 h
      cases h
      obtain ⟨hlength, hall⟩ := ih hdefs hrest hothers
      exact ⟨congrArg (· + 1) hlength,
        forall_mem_cons.2 ⟨newline_not_mem_expand hdefs hline, hall⟩⟩
    · next text hdirective =>
      split at h
      · cases h
      · next name value hdefine =>
        obtain ⟨others, hothers, h⟩ := Except.bind_eq_ok.1 h
        cases h
        have hvalue : '\n' ∉ value := fun hm =>
          hline (directive?_subset hdirective (readDefine_subset hdefine hm))
        have hdefs' : OnOneLine (defs.insert name (expand defs value)) := by
          intro other w hw
          rw [Table.get?_insert] at hw
          split at hw
          · cases hw
            exact newline_not_mem_expand hdefs hvalue
          · exact hdefs other w hw
        obtain ⟨hlength, hall⟩ := ih hdefs' hrest hothers
        exact ⟨congrArg (· + 1) hlength, forall_mem_cons.2 ⟨not_mem_nil, hall⟩⟩

/-- The two steps of preprocessing: the comments are stripped, and the lines of the rest expanded. -/
theorem preprocess_eq_ok {source text : String} (h : preprocess source = .ok text) :
    ∃ stripped, Comment.strip source.toList = .ok stripped ∧
      expandLines {} 0 (Text.splitLines stripped) = .ok (Text.splitLines text.toList) ∧
      (Text.splitLines text.toList).length = (Text.splitLines stripped).length := by
  obtain ⟨out, hout, h⟩ := Except.bind_eq_ok.1 h
  cases h
  rw [String.toList_ofList]
  unfold preprocessText at hout
  split at hout
  · cases hout
  next stripped hstrip =>
  split at hout
  · cases hout
  next lines hlines =>
  cases hout
  have hempty : OnOneLine {} := fun _ _ hget => by cases hget
  obtain ⟨hlength, hall⟩ := expandLines_lines hempty (Text.newline_not_mem_splitLines stripped) hlines
  have hne : lines ≠ [] := by
    rintro rfl
    exact Text.splitLines_ne_nil stripped (length_eq_zero_iff.1 hlength.symm)
  rw [Text.splitLines_joinLines hne hall]
  exact ⟨stripped, hstrip, hlines, hlength⟩

/-- **Preprocessing keeps the number of lines.** -/
theorem length_splitLines_preprocess {source text : String} (h : preprocess source = .ok text) :
    (Text.splitLines text.toList).length = (Text.splitLines source.toList).length := by
  obtain ⟨stripped, hstrip, -, hlength⟩ := preprocess_eq_ok h
  rw [hlength, Text.length_splitLines, Text.length_splitLines, Comment.count_stripFrom hstrip]

end Macro

end VecLang
