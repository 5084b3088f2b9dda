import VecLang.Proofs.Grammar.AbreastProgram

/-!
# The positions that the parser gives

A parser reads nothing but ASCII: words, numbers, symbols and blanks. So wherever it stands,
what it has read is ASCII, and the position of the place is the same by the index of the
lines as by the text in front of it. Every node of a tree has the position of such a place.

* `Reached`: the places where a parser may stand. `standing_reached`: reading keeps to them.
* `Marks`: the positions of these places. `Marks.eq_ofOffset`: they are true positions.
* `parseTree_reached`: an error has the position of such a place.
* `parseTree_marks`: **every node of what is read marks a place of its text.**
-/

namespace VecLang.Grammar

/-- **The cursor stands behind a part of the source that is ASCII**, at the offset of its end. -/
def Reached (source : Text) (c : Cursor) : Prop :=
  ∃ s, source = s ++ c.rest ∧ s.IsAscii ∧ c.offset = s.byteLength

/-- **The position is that of a place behind a part of the source that is ASCII.** -/
def Marks (source : Text) (pos : Pos) : Prop :=
  ∃ s rest, source = s ++ rest ∧ s.IsAscii ∧ pos = (LineIndex.ofText source).pos s.byteLength

/-- A position that marks a place is the same by the text in front of it, and its line is one
of the source. -/
theorem Marks.eq_ofOffset {source : Text} {pos : Pos} (h : Marks source pos) :
    pos = Pos.ofOffset source pos.offset ∧ pos.line < (Text.splitLines source).length := by
  obtain ⟨s, rest, rfl, hs, rfl⟩ := h
  have hoffset : ((LineIndex.ofText (s ++ rest)).pos s.byteLength).offset = s.byteLength := rfl
  refine ⟨by rw [hoffset, LineIndex.pos_eq_ofOffset hs], ?_⟩
  rw [LineIndex.pos_append, Text.length_splitLines, List.count_append]
  exact Nat.lt_succ_of_le (Nat.le_add_right _ _)

theorem Marks.eq_pos {source : Text} {pos : Pos} (h : Marks source pos) :
    pos = (LineIndex.ofText source).pos pos.offset := by
  obtain ⟨s, rest, -, -, rfl⟩ := h
  rfl

/-- Every node of the tree marks a place of the source. -/
def Marked (source : Text) (t : Tree) : Prop := ∀ l ∈ t.preorder, Marks source l.pos

/-- **The step**: what is read next is ASCII, so a place behind it is reached too. -/
theorem standing_reached (types : TypeTable) (source : Text) :
    Standing { types, lines := LineIndex.ofText source } (Reached source) (Marks source) where
  advance := by
    rintro c w r ⟨s, rfl, hs, hoffset⟩ hrest hw
    refine ⟨s ++ w, ?_, hs.append hw, ?_⟩
    · rw [Cursor.rest_advance hrest, hrest, List.append_assoc]
    · unfold Cursor.advance
      simp only [hrest, List.take_left, hoffset, Text.byteLength_append]
  marks := by
    rintro c ⟨s, hsource, hs, hoffset⟩
    refine ⟨s, c.rest, hsource, hs, ?_⟩
    unfold Env.pos
    rw [hoffset]
  first := ⟨[], source, rfl, List.forall_mem_nil _, rfl⟩

end VecLang.Grammar

namespace VecLang.Context

open Grammar

variable {ctx : Context} {p : Production} {source : Text} {t : Tree}

theorem parseTree_reached (ctx : Context) (p : Production) (source : Text) :
    Except.Ends (ctx.parseTree p source)
      (fun e => ∃ c, Reached source c ∧ e.pos? = some (Pos.ofOffset source c.offset))
      fun t => p.IsTree ctx.types t ∧ Marked source t :=
  parseTree_ends ctx p source (standing_reached ctx.types source) ⟨[], rfl, List.forall_mem_nil _, rfl⟩

/-- **Every node of what is read marks a place of its text.** -/
theorem parseTree_marks (h : ctx.parseTree p source = .ok t) : Marked source t := by
  have hends := parseTree_reached ctx p source
  rw [h] at hends
  exact hends.2

end VecLang.Context
