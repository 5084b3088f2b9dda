import VecLang.Proofs.Grammar.Parsing

/-!
# Blanks in texts

Two runs of the parser over texts that differ in their blanks alone come to the same tree, apart
from positions, or they fail with the same problem at the same token.

* `Error.SameCause`: errors that are the same apart from where they are.
* `parse_respaced`: **the parser ignores the amount and the kind of blanks.**
-/

namespace VecLang

namespace Grammar.March

open Cursor

variable {env env' : Env} {m : March env env'} {c c' : Cursor}

theorem isBlank_of_isSpacing {ch : Char} (h : isSpacing ch = true) : Text.isBlank ch = true := by
  simp only [isSpacing, Bool.or_eq_true, beq_iff_eq] at h
  rcases h with ((rfl | rfl) | rfl) | rfl <;> rfl

theorem leftover_eq (hm : m.tail = []) (h : m.Abreast c c') : leftover c'.rest = leftover c.rest := by
  have hclass : ∀ ch, (!Text.isBlank ch) = true → Apart m.tail ch := by
    intro ch hch
    cases hs : isSpacing ch with
    | false => exact hm ▸ apart_nil hs
    | true =>
      rw [isBlank_of_isSpacing hs] at hch
      cases hch
  unfold leftover
  rw [(h.rest.while_eq hclass).1]

theorem describe_eq (hm : m.tail = []) (h : m.Abreast c c') : describe c'.rest = describe c.rest := by
  have hclass : ∀ ch, isTokenChar ch = true → Apart m.tail ch := by
    intro ch hch
    rcases Bool.or_eq_true_iff.1 hch with hword | hpoint
    · exact m.isTail.word hword
    · exact m.isTail.mark (by rw [beq_iff_eq.1 hpoint]; decide)
  have htoken := (h.rest.while_eq hclass).1
  have hsettled := h.settled
  rcases h.rest.start_cases with ⟨hs, he⟩ | ⟨x, r, r', -, hs, hs', -⟩ | ⟨x, x', r, r', hx, -, hs, -⟩
  · rw [hm] at he
    rw [hs]
    rcases he with he | he
    · rw [he]
    · rw [he]
      rfl
  · rw [hs, hs'] at htoken ⊢
    unfold describe
    simp only [htoken]
  · rw [hs] at hsettled
    cases hx.symm.trans (hsettled x rfl)

end Grammar.March

/-- What went wrong, without where. -/
def Error.cause (e : Error) : Error :=
  match e.root with
  | .malformed fault _ => .malformed fault {}
  | e => e

/-- **The errors are the same apart from where they are**: the same variant, for the same cause,
and both are located or none is. -/
structure Error.SameCause (e e' : Error) : Prop where
  cause : e'.cause = e.cause
  located : e'.isLocated = e.isLocated

namespace Context

open Grammar

variable {ctx ctx' : Context}

theorem parseTree_agree (htypes : ctx'.types = ctx.types) (p : Production) {s s' : Text}
    (h : Respaced s s') :
    (∃ t t', ctx.parseTree p s = .ok t ∧ ctx'.parseTree p s' = .ok t' ∧
        t.unplaced = t'.unplaced) ∨
      ∃ e e', ctx.parseTree p s = .error e ∧ ctx'.parseTree p s' = .error e' ∧ e.SameCause e' := by
  let m : March ⟨ctx.types, LineIndex.ofText s⟩ ⟨ctx'.types, LineIndex.ofText s'⟩ :=
    .anywhere [] isTail_nil htypes
  have hruns := March.produce_agree (m := m) rfl p (March.abreast_anywhere h.extends
    (Cursor.rest_start s) (Cursor.rest_start s'))
  unfold parseTree
  simp only
  generalize produce ⟨ctx.types, LineIndex.ofText s⟩ p (Cursor.start s) = x,
    produce ⟨ctx'.types, LineIndex.ofText s'⟩ p (Cursor.start s') = y at hruns ⊢
  cases hruns with
  | @ok a b hab =>
    obtain ⟨t, c⟩ := a
    obtain ⟨t', c'⟩ := b
    have hc : m.Abreast c c' := hab.cursors.abreast
    simp only [hc.atEnd rfl, March.leftover_eq rfl hc]
    by_cases hend : c.atEnd = true
    · rw [if_pos hend, if_pos hend]
      exact .inl ⟨t, t', rfl, rfl, hab.value.same⟩
    · rw [if_neg hend, if_neg hend]
      exact .inr ⟨_, _, rfl, rfl, rfl, rfl⟩
  | @error c c' problem hc =>
    refine .inr ?_
    cases problem with
    | unexpected | expected what =>
      refine ⟨_, _, rfl, rfl, ?_, rfl⟩
      simp only [Error.cause, Error.root, March.describe_eq rfl hc]
    | literalOutOfRange | misplacedQualifier | tooDeep | unknownType name =>
      exact ⟨_, _, rfl, rfl, rfl, rfl⟩
  | failed hm => exact absurd rfl hm

/-- **The parser ignores the amount and the kind of blanks.** Let each longest run of blanks of a
text be replaced by some other run of blanks. Then a program, a list of statements or an expression
is read from both texts, and the trees are the same apart from positions, or from none of them, and
the errors are the same apart from where they are. -/
theorem parse_respaced (htypes : ctx'.types = ctx.types) (p : Production) {a a' : Arena}
    (ha : a.WellFormed) (ha' : a'.WellFormed) {source source' : String}
    (h : Respaced source.toList source'.toList) :
    (∃ b id b' id', ctx.parse a p source = .ok (b, id) ∧ ctx'.parse a' p source' = .ok (b', id') ∧
        (b.tree id).unplaced = (b'.tree id').unplaced) ∨
      ∃ e e', ctx.parse a p source = .error e ∧ ctx'.parse a' p source' = .error e' ∧
        e.SameCause e' := by
  rcases parseTree_agree htypes p h with ⟨t, t', ht, ht', hsame⟩ | ⟨e, e', he, he', hsame⟩
  · obtain ⟨b, id, hb, htree⟩ := exists_parse ha ht
    obtain ⟨b', id', hb', htree'⟩ := exists_parse ha' ht'
    refine .inl ⟨b, id, b', id', hb, hb', ?_⟩
    rw [htree, htree']
    exact hsame
  · exact .inr ⟨e, e', (parse_eq_error ha).2 he, (parse_eq_error ha').2 he', hsame⟩

def narrowText : String :=
  "vec2 f(float a, int k[2]) \x7b if (a >= 1.5e2) a += -a; else return a < .5 ? vec2(a, 2).yx : k; \x7d "

def wideText : String :=
  "vec2\n\tf(float\r\na,\tint   k[2])\n\x7b\n  if\t(a\n>=\n1.5e2)\r\n\ta\t+=\t-a;\n  else\n  return\ta  <  .5  ?  vec2(a,\n2).yx\n:\nk;\n\x7d\n\n"

theorem parse_respaced_wideText : ∃ b id b' id',
    Respaced narrowText.toList wideText.toList ∧
      (Context.new narrowText "").parse {} .program narrowText = .ok (b, id) ∧
      (Context.new wideText "").parse {} .program wideText = .ok (b', id') ∧
      (b.tree id).unplaced = (b'.tree id').unplaced := by
  have hspaced : Respaced narrowText.toList wideText.toList := by decide +kernel
  have hread : ((Context.new narrowText "").parse {} .program narrowText).isOk = true := by
    decide +kernel
  have htypes : (Context.new wideText "").types = (Context.new narrowText "").types := rfl
  rcases parse_respaced htypes .program Arena.wellFormed_empty Arena.wellFormed_empty hspaced with
    ⟨b, id, b', id', hb, hb', hsame⟩ | ⟨e, e', he, -⟩
  · exact ⟨b, id, b', id', hspaced, hb, hb', hsame⟩
  · rw [he] at hread
    cases hread

end Context

end VecLang
