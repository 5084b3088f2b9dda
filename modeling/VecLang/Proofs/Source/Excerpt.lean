import Mathlib.Data.List.Forall2
import VecLang.Source.Excerpt

/-!
# What an excerpt shows

An excerpt has a row for each line near the place, and below the line of the place a row of
carets, if the first of them has a character to stand under. The rows are described here by what
stands where in them; the description leaves no choice.

* `IsMargin`, `Marks`: the number in front of a line, and the carets below one.
* `Shows`: the whole text.
* `around?_shows`: **an excerpt shows what it should, unless a sum leaves the range of words.**
-/

namespace VecLang.Excerpt

open List

variable {line col count width index : Nat} {content : Text}

/-- What stands in front of a line: its number, counted from one and right-aligned. -/
structure IsMargin (width index : Nat) (margin : Text) : Prop where
  digits : ∃ pad, margin = [' ', ' '] ++ Text.replicate pad ' ' ++ Nat.toDigits 10 (index + 1) ++
    [':', ' ']
  length : margin.length = width + 4

/-- **The carets mark the characters** from two before the column to two behind it, as far as the
line has them: each stands under its character, blanks stand before them, and nothing behind. -/
structure Marks (margin content : Text) (col : Nat) (carets : Text) : Prop where
  under : ∀ j, carets[j]? = some '^' ↔
    ∃ k, j = margin.length + k ∧ col - 2 ≤ k ∧ k ≤ col + 2 ∧ k < content.length
  blank : ∀ c ∈ carets, c = ' ' ∨ c = '^'
  length : carets.length = margin.length + min (col + 2) (content.length - 1) + 1

def IsBlock (width line col : Nat) (entry : Text × Nat) (rows : List Text) : Prop :=
  ∃ margin, IsMargin width entry.2 margin ∧
    if entry.2 = line ∧ col - 2 < entry.1.length then
      ∃ carets, Marks margin entry.1 col carets ∧ rows = [margin ++ entry.1, carets]
    else rows = [margin ++ entry.1]

/-- The lines at most half of `count` away from `line`, with their indices. -/
def window (source : Text) (line count : Nat) : List (Text × Nat) :=
  (Text.splitLines source).zipIdx.filter fun entry =>
    line - count / 2 ≤ entry.2 ∧ entry.2 ≤ line + count / 2

/-- **What an excerpt shows**: the rows of the lines in the window, in order, with numbers as wide
as the number of all lines. -/
def Shows (source : Text) (line col count : Nat) (text : Text) : Prop :=
  ∃ blocks, List.Forall₂ (IsBlock (Nat.toDigits 10 (Text.splitLines source).length).length line col)
    (window source line count) blocks ∧ text = blocks.flatten.flatMap (· ++ ['\n'])

theorem isMargin_alignRight (h : (Nat.toDigits 10 (index + 1)).length ≤ width) :
    IsMargin width index ([' ', ' '] ++ alignRight width (index + 1) ++ [':', ' ']) := by
  refine ⟨⟨width - (Nat.toDigits 10 (index + 1)).length, by simp [alignRight]⟩, ?_⟩
  simp only [alignRight, Text.replicate, length_append, length_replicate, length_cons,
    length_nil]
  omega

theorem marks_replicate {margin : Text} (h : col - 2 < content.length) :
    Marks margin content col (Text.replicate (margin.length + (col - 2)) ' ' ++
      Text.replicate (min (col + 2) (content.length - 1) - (col - 2) + 1) '^') := by
  unfold Text.replicate
  refine ⟨fun j => ?_, fun c hc => ?_, ?_⟩
  · rw [getElem?_append, getElem?_replicate, getElem?_replicate, length_replicate]
    constructor
    · intro hj
      split at hj
      · simp at hj
      split at hj
      · exact ⟨j - margin.length, by omega⟩
      · cases hj
    · rintro ⟨k, rfl, hlo, hhi, hk⟩
      rw [if_neg (by omega), if_pos (by omega)]
  · rcases mem_append.1 hc with hc | hc
    · exact .inl (eq_of_mem_replicate hc)
    · exact .inr (eq_of_mem_replicate hc)
  · rw [length_append, length_replicate, length_replicate]
    omega

/-- **The rows of one line.** -/
theorem isBlock_row (h : (Nat.toDigits 10 (index + 1)).length ≤ width) :
    ∃ rows, IsBlock width line col (content, index) rows ∧
      row width line col index content = rows.flatMap (· ++ ['\n']) := by
  let margin := [' ', ' '] ++ alignRight width (index + 1) ++ [':', ' ']
  have hmargin : IsMargin width index margin := isMargin_alignRight h
  by_cases hmarked : index = line ∧ col - 2 < content.length
  · obtain ⟨hline, hcol⟩ := hmarked
    let carets := Text.replicate (margin.length + (col - 2)) ' ' ++
      Text.replicate (min (col + 2) (content.length - 1) - (col - 2) + 1) '^'
    refine ⟨[margin ++ content, carets], ⟨margin, hmargin, ?_⟩, ?_⟩
    · rw [if_pos ⟨hline, hcol⟩]
      exact ⟨carets, marks_replicate hcol, rfl⟩
    · have hlo : col - 2 ≤ min (col + 2) (content.length - 1) := by omega
      simp only [row, caretRow, if_pos hline, if_pos (And.intro hlo hcol), margin, carets, hmargin.length]
      simp
  · refine ⟨[margin ++ content], ⟨margin, hmargin, by rw [if_neg hmarked]⟩, ?_⟩
    have hnone : (if index = line then caretRow width content col else []) = [] := by
      split
      · next hline =>
        rw [caretRow, if_neg fun hboth => hmarked ⟨hline, hboth.2⟩]
      · rfl
    simp only [row, hnone, margin]
    simp

/-- **The rows of consecutive lines**, by induction on the lines. -/
theorem isBlock_rows (line col : Nat) {first : Nat} {lines : List Text} (h : ∀ i, first ≤ i →
      i < first + lines.length → (Nat.toDigits 10 (i + 1)).length ≤ width) :
    ∃ blocks, List.Forall₂ (IsBlock width line col) (lines.zipIdx first) blocks ∧
      rows width line col first lines = blocks.flatten.flatMap (· ++ ['\n']) := by
  induction lines generalizing first with
  | nil => exact ⟨[], .nil, rfl⟩
  | cons content lines ih =>
    rw [length_cons] at h
    obtain ⟨block, hblock, hrow⟩ := isBlock_row (h first (Nat.le_refl _) (by omega))
    obtain ⟨blocks, hblocks, hrows⟩ :=
      ih fun i (hi : first + 1 ≤ i) hlt => h i (by omega) (by omega)
    refine ⟨block :: blocks, .cons hblock hblocks, ?_⟩
    rw [rows, hrow, hrows, flatten_cons, flatMap_append]

theorem filter_zipIdx {α : Type} (l : List α) (first lo hi : Nat) :
    (l.zipIdx first).filter (fun entry => lo ≤ entry.2 ∧ entry.2 ≤ hi) =
      ((l.take (hi + 1 - first)).drop (lo - first)).zipIdx (max lo first) := by
  induction l generalizing first with
  | nil => simp
  | cons x l ih =>
    rw [zipIdx_cons, filter_cons, ih]
    by_cases hhi : first ≤ hi
    · rw [show hi + 1 - first = hi - first + 1 by omega, take_succ_cons,
        show hi + 1 - (first + 1) = hi - first by omega]
      by_cases hlo : lo ≤ first
      · simp [hlo, hhi, show lo ≤ first + 1 by omega]
      · rw [show lo - first = lo - (first + 1) + 1 by omega, drop_succ_cons,
          Nat.max_eq_left (by omega : first ≤ lo), Nat.max_eq_left (by omega : first + 1 ≤ lo),
          if_neg (by simp [hlo])]
    · simp [hhi, show hi + 1 - first = 0 by omega, show hi - first = 0 by omega]

/-- **An excerpt shows the lines around the place**, in unbounded numbers. -/
theorem around_shows (source : Text) (line col count : Nat) :
    Shows source line col count (around source line col count) := by
  -- no line of the window has a wider number than the last line of the source
  have hwidth : ∀ i, line - count / 2 ≤ i → i < line - count / 2 +
      (((Text.splitLines source).take (line + count / 2 + 1)).drop (line - count / 2)).length →
      (Nat.toDigits 10 (i + 1)).length ≤ (Nat.toDigits 10 (Text.splitLines source).length).length := by
    intro i hi hlt
    rw [length_drop, length_take] at hlt
    rw [Nat.length_toDigits_le_iff (by decide) Nat.length_toDigits_pos]
    have hall := (Nat.length_toDigits_le_iff (b := 10) (n := (Text.splitLines source).length)
      (by decide) Nat.length_toDigits_pos).1 (Nat.le_refl _)
    omega
  obtain ⟨blocks, hblocks, hrows⟩ := isBlock_rows line col hwidth
  refine ⟨blocks, ?_, hrows⟩
  unfold window
  rwa [filter_zipIdx, Nat.sub_zero, Nat.sub_zero, Nat.max_eq_left (Nat.zero_le _)]

/-- **The excerpt at a place** shows the lines at most half of `count` away, numbered, with carets
below the characters at most two columns away. There is no excerpt just if the sum that ends the
window is no machine word, or if the line is there and the sum that ends its carets is none. -/
theorem around?_shows (source : Text) (line col count : Nat) :
    ∃ text, Shows source line col count text ∧ around? source line col count =
      if wordRange ≤ line + count / 2 + 1 ∨
        line < (Text.splitLines source).length ∧ wordRange ≤ col + 2 then none else some text := by
  refine ⟨_, around_shows source line col count, ?_⟩
  unfold around?
  by_cases h : wordRange ≤ line + count / 2 + 1 ∨
      line < (Text.splitLines source).length ∧ wordRange ≤ col + 2
  · rw [if_pos h, if_neg (by omega)]
  · rw [if_neg h, if_pos (by omega)]

/-- The second of two lines is in the window of a line far behind it, but the excerpt is lost: the
window ends past the range of words. -/
theorem excerpt_lost_far : around? "a\nb".toList (wordRange / 2) 0 (wordRange - 1) = none ∧
    Shows "a\nb".toList (wordRange / 2) 0 (wordRange - 1) "  2: b\n".toList := by
  refine ⟨by decide, ?_⟩
  have h := around_shows "a\nb".toList (wordRange / 2) 0 (wordRange - 1)
  rwa [show around "a\nb".toList (wordRange / 2) 0 (wordRange - 1) = "  2: b\n".toList by decide] at h

end VecLang.Excerpt
