import VecLang.Context.Builtin
import VecLang.Proofs.Arena.InPlace
import VecLang.Proofs.Grammar.Positions

/-!
# Parsing into an arena

A text is read as a tree first, and the nodes of the tree are then made in the arena one after the
other. A failure between these steps would leave nodes behind. There is none: a text that cannot be
read is found before the first node is made, and no step from there on is refused. So one that is read
adds the nodes of its tree behind the nodes that were there, in preorder.

* `Arena.Grown`: an arena with the nodes of a tree behind its own.
* `parseInPlace_cases`: what parsing does, by what the text is read as.
* `parse_grows`: **parsing adds one tree, or nothing.**
-/

namespace VecLang

/-- **`b` is `a` with one tree more**: the nodes of the tree have the ids behind those of `a`, in
preorder, and its root has no parent. -/
structure Arena.Grown (a b : Arena) : Prop where
  wellFormed : b.WellFormed
  lt : a.size < b.size
  same : Arena.SameOn (· < a.size) a b
  preorder : b.preorder a.size = List.range' a.size (b.size - a.size)
  parent? : b.parent? a.size = none

namespace Context

open Grammar

variable {ctx : Context} {p : Production} {a b : Arena} {id : NodeId} {source : String} {t : Tree}

/-- The root of an arena after a text was parsed into it. -/
def rootAfter (a : Arena) (p : Production) : Option NodeId :=
  if p = .program then some a.size else a.root?

/-- A tree that is read is grafted, and nothing stands against that. -/
theorem parseInPlace_eq (ha : a.WellFormed) (hread : ctx.parseTree p source.toList = .ok t) :
    ctx.parseInPlace p source a = .ok a.size
      (if p = .program then (a.graft t).1.setRoot a.size else (a.graft t).1) := by
  unfold parseInPlace
  rw [hread]
  change EStateM.bind (InPlace.graft t) _ a = _
  unfold EStateM.bind
  rw [InPlace.graft_eq t ha]
  by_cases hp : p = .program
  · simp only [if_pos hp]
    rfl
  · simp only [if_neg hp]
    rfl

/-- **What parsing does**: an error is passed on before anything has changed, and a tree is
grafted. -/
theorem parseInPlace_cases (ha : a.WellFormed) (ctx : Context) (p : Production) (source : String) :
    (∃ e, ctx.parseTree p source.toList = .error e ∧ ctx.parseInPlace p source a = .error e a) ∨
      ∃ b, ctx.parseTree p source.toList = .ok (b.tree a.size) ∧
        ctx.parseInPlace p source a = .ok a.size b ∧ a.Grown b ∧ b.root? = rootAfter a p := by
  cases hread : ctx.parseTree p source.toList with
  | error e =>
    refine .inl ⟨e, rfl, ?_⟩
    unfold parseInPlace
    rw [hread]
    rfl
  | ok t =>
    have hparse := parseInPlace_eq ha hread
    obtain ⟨hg, hid⟩ := Arena.graft_spec t ha
    have htree := Arena.tree_graft ha t
    rw [hid] at htree
    have hpos : 0 < t.size := by cases t; rw [Rose.size]; omega
    have hsize : t.size = (a.graft t).1.size - a.size := by rw [hg.size]; omega
    have hpre := hg.spans.preorder_eq hg.wellFormed
    rw [Arena.entry_numbered, Arena.preorder_numbered, hsize] at hpre
    have hgrown : a.Grown (a.graft t).1 :=
      ⟨hg.wellFormed, by rw [hg.size]; omega, hg.same, hpre, hg.parent?⟩
    refine .inr ?_
    by_cases hp : p = .program
    · rw [if_pos hp] at hparse
      refine ⟨_, by rw [Arena.tree_setRoot, htree], hparse, ?_, ?_⟩
      · have hroot := Arena.shape_setRoot (a.graft t).1 a.size a.size
        exact ⟨hg.wellFormed.congr (fun _ => rfl) (fun _ => rfl), hgrown.lt, hgrown.same,
          (congrArg Rose.preorder hroot).trans hpre, hgrown.parent?⟩
      · rw [rootAfter, if_pos hp]
        rfl
    · rw [if_neg hp] at hparse
      refine ⟨_, by rw [htree], hparse, hgrown, ?_⟩
      rw [rootAfter, if_neg hp, hg.root?]

theorem parse_of_ok (h : ctx.parseInPlace p source a = .ok id b) :
    ctx.parse a p source = .ok (b, id) := by
  rw [parse, h]

/-- Nothing but the reading of the text fails. -/
theorem parse_eq_error (ha : a.WellFormed) {e : Error} :
    ctx.parse a p source = .error e ↔ ctx.parseTree p source.toList = .error e := by
  rcases parseInPlace_cases ha ctx p source with ⟨e', hread, hparse⟩ | ⟨b, hread, hparse, -⟩
  · rw [hread, parse, hparse]
    simp
  · rw [hread, parse_of_ok hparse]
    simp

theorem parse_eq_ok (ha : a.WellFormed) (h : ctx.parse a p source = .ok (b, id)) :
    ctx.parseTree p source.toList = .ok (b.tree id) ∧ id = a.size ∧ a.Grown b ∧
      b.root? = rootAfter a p := by
  rcases parseInPlace_cases ha ctx p source with ⟨e, hread, -⟩ | ⟨b', hread, hparse, hgrown, hroot⟩
  · rw [(parse_eq_error ha).2 hread] at h
    cases h
  · rw [parse_of_ok hparse] at h
    cases h
    exact ⟨hread, rfl, hgrown, hroot⟩

theorem exists_parse (ha : a.WellFormed) (h : ctx.parseTree p source.toList = .ok t) :
    ∃ b id, ctx.parse a p source = .ok (b, id) ∧ b.tree id = t := by
  rcases parseInPlace_cases ha ctx p source with ⟨e, he, -⟩ | ⟨b, hread, hparse, -⟩
  · rw [h] at he
    cases he
  · rw [h] at hread
    exact ⟨b, a.size, parse_of_ok hparse, (Except.ok.inj hread).symm⟩

/-- **Parsing adds one tree, or nothing.** Whatever the context, the text and what it is parsed as:
carried out step by step on the arena itself, it may fail, and then the arena is as it was, and the
error has the position of a character boundary of the text. Or it succeeds, the nodes of the arena
are as they were, the new nodes have the ids behind them in preorder of the tree, its root is the
first of them and has no parent, the arena is well formed, and the root of the arena is a new one for
a program alone. -/
theorem parse_grows (ctx : Context) (p : Production) (source : String) (ha : a.WellFormed) :
    (∃ e offset, ctx.parseInPlace p source a = .error e a ∧ ctx.parse a p source = .error e ∧
        Text.IsBoundary source.toList offset ∧ offset ≤ Text.byteLength source.toList ∧
        e.pos? = some (Pos.ofOffset source.toList offset)) ∨
      ∃ b, ctx.parseInPlace p source a = .ok a.size b ∧ ctx.parse a p source = .ok (b, a.size) ∧
        a.Grown b ∧ b.root? = if p = .program then some a.size else a.root? := by
  rcases parseInPlace_cases ha ctx p source with ⟨e, hread, hparse⟩ | ⟨b, -, hparse, hgrown, hroot⟩
  · have hends := parseTree_reached ctx p source.toList
    rw [hread] at hends
    obtain ⟨c, ⟨s, hs, -, hoffset⟩, hpos⟩ := hends
    have hboundary : Text.IsBoundary source.toList c.offset := ⟨s, c.rest, hs, hoffset⟩
    exact .inl ⟨e, c.offset, hparse, (parse_eq_error ha).2 hread, hboundary, hboundary.le, hpos⟩
  · exact .inr ⟨b, hparse, parse_of_ok hparse, hgrown, hroot⟩

def seedling : Arena := (({} : Arena).add { kind := .ret }).1

theorem parse_grows_seedling : ∃ b e offset, seedling.WellFormed ∧
    (Context.new "" "").parseInPlace .program "float f() \x7b return .5; \x7d" seedling = .ok 1 b ∧
    seedling.Grown b ∧ b.root? = some 1 ∧
    (Context.new "" "").parseInPlace .statements "float x = §;" seedling = .error e seedling ∧
    Text.IsBoundary "float x = §;".toList offset ∧
    e.pos? = some (Pos.ofOffset "float x = §;".toList offset) := by
  have hw : seedling.WellFormed := Arena.wellFormed_empty.add _
  have hread : ((Context.new "" "").parse seedling .program "float f() \x7b return .5; \x7d").isOk =
      true := by decide +kernel
  have hfails : ((Context.new "" "").parse seedling .statements "float x = §;").isOk = false := by
    decide +kernel
  rcases parse_grows (Context.new "" "") .program "float f() \x7b return .5; \x7d" hw with
    ⟨e, _, -, he, -⟩ | ⟨b, hb, -, hgrown, hroot⟩
  · rw [he] at hread
    cases hread
  rcases parse_grows (Context.new "" "") .statements "float x = §;" hw with
    ⟨e, offset, he, -, hboundary, -, hpos⟩ | ⟨b, -, hb, -⟩
  · exact ⟨b, e, offset, hw, hb, hgrown, hroot, he, hboundary, hpos⟩
  · rw [hb] at hfails
    cases hfails

end Context

end VecLang
