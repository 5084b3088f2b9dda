import VecLang.Emit.Target
import VecLang.Proofs.Emit.Source
import VecLang.Proofs.Grammar.Parsing
import VecLang.Proofs.Grammar.ReadProgram

/-!
# Printing and reading back

A program in a context with the builtin types that is printed in the language itself
and read again is the same program, apart from positions: `parse_source_generate`.

* `selfNamed_builtin`: the builtin types are known by their own names.
* `parse_written`: a text that writes a program is parsed to it.
-/

namespace VecLang

namespace Emit.Source

open Grammar

theorem selfNamed_builtin : SelfNamed Builtin.types := by
  have hall : ∀ e ∈ Builtin.types.entries, e.2.name = e.1 ∧ declarator e.2 = (e.1, "") := by decide
  intro n ty h
  have hmem : ∀ {es : List (String × Ty)}, Table.lookup n es = some ty → (n, ty) ∈ es := by
    intro es
    induction es with
    | nil => intro h; cases h
    | cons e es ih =>
      obtain ⟨k, v⟩ := e
      intro h
      rw [Table.lookup] at h
      split at h
      · next hk => cases h; rw [hk]; exact .head _
      · exact .tail _ (ih h)
  exact hall _ (hmem h)

end Emit.Source

namespace Context

open Grammar Emit Emit.Source

variable {ctx : Context} {a b : Arena} {id : NodeId}

theorem parse_program_eq_ok {source : String} (ha : a.WellFormed)
    (h : ctx.parse a .program source = .ok (b, id)) :
    ctx.parseTree .program source.toList = .ok (b.tree id) ∧ b.root? = some id := by
  obtain ⟨hread, rfl, -, hroot⟩ := parse_eq_ok ha h
  exact ⟨hread, hroot⟩

theorem parse_written {source : String} {t : Tree} (ha : a.WellFormed)
    (h : WrittenProgram ctx.types source.toList t) :
    ∃ b id, ctx.parse a .program source = .ok (b, id) ∧ (b.tree id).unplaced = t.unplaced := by
  let env : Env := { types := ctx.types, lines := LineIndex.ofText source.toList }
  have henv : WrittenProgram env.types source.toList t := h
  obtain ⟨u, c, hread, hu, hend⟩ := henv.read
  have htree : ctx.parseTree .program source.toList = .ok u := by
    unfold parseTree
    simp only [produce, show program ⟨ctx.types, LineIndex.ofText source.toList⟩ _ = _ from hread,
      Cursor.atEnd, hend]
    rfl
  obtain ⟨b, id, hparse, hb⟩ := exists_parse ha htree
  exact ⟨b, id, hparse, by rw [hb, hu]⟩

/-- **A program that is printed and read again is the same program.** Whatever the
indentation and the number of places, the own-language text of a program that was
read with the builtin types is read as a tree with the same kinds, values,
operators, qualifiers and order of children. -/
theorem parse_source_generate {a' : Arena} {text file text' file' source : String}
    (options : Options) (ctx : Context) (ha : a.WellFormed) (ha' : a'.WellFormed)
    (hparse : (Context.new text file).parse a .program source = .ok (b, id))
    (hlegible : ∀ u ∈ (b.tree id).subtrees, Legible options.floatPrecision u)
    (hplaces : 1 ≤ options.floatPrecision) :
    ∃ s, Target.source.generate { arena := b, context := ctx } options = .ok s ∧
      ∃ b' id', (Context.new text' file').parse a' .program s = .ok (b', id') ∧
        (b'.tree id').unplaced = (b.tree id).unplaced := by
  obtain ⟨htree, hroot⟩ := parse_program_eq_ok ha hparse
  obtain ⟨s, hs, hwritten⟩ :=
    emit_program selfNamed_builtin hplaces (parseTree_shape htree) hlegible
  refine ⟨s, ?_, parse_written ha' hwritten⟩
  show (do
    let root ← rootOf { arena := b, context := ctx }
    Source.emit ctx options 0 (b.tree root)) = _
  rw [rootOf, hroot]
  exact hs

/-- A program with most of what the printer writes. -/
def sampleText : String :=
  "uniform float w[3]; vec2 f(float a) { if (a > w[0]) a = -(a - 1.5); else return vec2(a, 2).yx; }"

theorem parse_source_generate_sample : ∃ b id s b' id',
    (Context.new "" "").parse {} .program sampleText = .ok (b, id) ∧
      (∀ u ∈ (b.tree id).subtrees, Legible 7 u) ∧
      Target.source.generate { arena := b, context := Context.new "" "" } {} = .ok s ∧
      (Context.new "" "").parse {} .program s = .ok (b', id') ∧
      (b'.tree id').unplaced = (b.tree id).unplaced := by
  have hcheck : (match (Context.new "" "").parse {} .program sampleText with
      | .ok (b, id) => decide (∀ u ∈ (b.tree id).subtrees, Legible 7 u)
      | .error _ => false) = true := by decide +kernel
  cases hparse : (Context.new "" "").parse {} .program sampleText with
  | error e => rw [hparse] at hcheck; cases hcheck
  | ok r =>
    obtain ⟨b, id⟩ := r
    rw [hparse] at hcheck
    have hlegible := of_decide_eq_true hcheck
    obtain ⟨s, hs, b', id', hparse', htree⟩ := parse_source_generate {}
      (Context.new "" "") Arena.wellFormed_empty Arena.wellFormed_empty hparse hlegible (by decide)
    exact ⟨b, id, s, b', id', rfl, hlegible, hs, hparse', htree⟩

end Context

end VecLang
