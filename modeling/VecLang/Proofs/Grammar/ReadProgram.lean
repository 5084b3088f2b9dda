import VecLang.Proofs.Grammar.ReadExpression
import VecLang.Proofs.Grammar.WrittenProgram

/-!
# Reading written statements and programs

The texts of `WrittenProgram` are read back as the trees they write, apart from
positions.

* `Declares.read`: declarations.
* `WrittenStatement.reads`: statements, by induction on how they are written.
* `WrittenItem.read`, `WrittenProgram.read`: **a written program is read as its tree.**
-/

namespace VecLang.Grammar

open List

variable {env : Env} {d n : Nat} {s s' r : Text} {t t' : Tree} {c c' : Cursor} {ty ty' : Ty}
  {x w : Text} {v : String} {stmt : StmtParser} {pos : Pos} {limit : Nat} {lines : List Line}
  {a : Tree} {f : Form}

/-! ### Declarations -/

theorem arraySuffix_read (h : Suffix ty ty' x) (hc : c.rest = skip (x ++ r))
    (hr : (skip r).head? ≠ some '[') :
    ∃ c', arraySuffix ty c = .ok (ty', c') ∧ c'.rest = skip r := by
  cases h with
  | none =>
    have hopen : c.symbol? "[" = none := Cursor.symbol?_eq_none '[' rfl (by rw [hc]; exact hr)
    exact ⟨c, by rw [arraySuffix, hopen], hc⟩
  | @sized m hm =>
    have hc' : c.rest = '[' :: (Nat.toDigits 10 m ++ ']' :: r) := by
      rw [hc]
      show skip ('[' :: _) = _
      rw [skip_cons rfl]
      simp
    obtain ⟨c₁, h₁, hr₁⟩ := Cursor.symbol?_of (r := Nat.toDigits 10 m ++ ']' :: r) "[" hc'
    have hskip : skip (Nat.toDigits 10 m ++ ']' :: r) = Nat.toDigits 10 m ++ ']' :: r := by
      obtain ⟨ch, l, hl, hw⟩ := toDigits_cons m
      rw [hl]
      exact skip_cons (isSpacing_of_isWordChar hw)
    rw [hskip] at hr₁
    have hdigits : c₁.rest.takeWhile Char.isDigit = Nat.toDigits 10 m := by
      rw [hr₁]
      exact takeWhile_run toDigits_isDigit (by rintro ch h; cases h; rfl)
    have hsize : ¬ ((Nat.toDigits 10 m).isEmpty || decide (m > maxSize)) = true := by
      rw [isEmpty_eq_false_iff.2 Nat.toDigits_ne_nil]
      simpa using hm
    have hr₂ : (c₁.advance (Nat.toDigits 10 m).length).skipBlanks.rest = ']' :: r := by
      rw [Cursor.rest_skipBlanks, Cursor.rest_advance hr₁, skip_cons rfl]
    obtain ⟨c₃, h₃, hr₃⟩ := Cursor.expect_of (r := r) "]" hr₂
    refine ⟨c₃, ?_, hr₃⟩
    rw [arraySuffix, h₁]
    simp only [hdigits, digitsValue_toDigits, h₃, ok_bind, if_neg hsize]
    rfl
  | unsized =>
    have hc' : c.rest = '[' :: ']' :: r := by
      rw [hc]
      exact skip_cons rfl
    obtain ⟨c₁, h₁, hr₁⟩ := Cursor.symbol?_of (r := ']' :: r) "[" hc'
    rw [skip_cons rfl] at hr₁
    have hdigits : c₁.rest.takeWhile Char.isDigit = [] := by rw [hr₁]; rfl
    obtain ⟨c₂, h₂, hr₂⟩ := Cursor.expect_of (r := r) "]" hr₁
    refine ⟨c₂, ?_, hr₂⟩
    rw [arraySuffix, h₁]
    simp only [hdigits, h₂, ok_bind]
    rfl

theorem Suffix.noWord (h : Suffix ty ty' x) (hr : NoWord r) : NoWord (x ++ r) := by
  cases h with
  | none => exact hr
  | sized _ | unsized => exact noWord_cons rfl

theorem Declarator.read (h : Declarator env.types s v ty') (hc : c.rest = s ++ r) (hr : NoWord r)
    (hr' : (skip r).head? ≠ some '[') :
    rejectUnknownType env c = .ok () ∧ ∃ ty c₁ c₂ c₃, typeName? env c = some (ty, c₁) ∧
      c₁.name? = some (v, c₂) ∧ arraySuffix ty c₂ = .ok (ty', c₃) ∧ c₃.rest = skip r ∧
      ((skip r).head? ≠ some '(' → c₂.startsWith "(" = false) := by
  obtain @⟨m, v, ty, ty', x, hm, hty, hv, hx⟩ := h
  have hc' : c.rest = m.toList ++ ' ' :: (v.toList ++ (x ++ r)) := by rw [hc]; simp
  obtain ⟨c₁, h₁, hr₁⟩ := Cursor.name?_of hm (noWord_cons (by decide)) hc'
  have hskip : skip (' ' :: (v.toList ++ (x ++ r))) = v.toList ++ (x ++ r) := by
    obtain ⟨ch, l, hl, hs⟩ := hv.cons
    rw [skip_cons_blank rfl, hl]
    exact skip_cons (isSpacing_of_isWordChar (Text.isWordChar_of_isWordStart hs))
  rw [hskip] at hr₁
  obtain ⟨c₂, h₂, hr₂⟩ := Cursor.name?_of hv (hx.noWord hr) hr₁
  obtain ⟨c₃, h₃, hr₃⟩ := arraySuffix_read hx hr₂ hr'
  have hknown : env.types.contains m = true := by simp [Table.contains, hty]
  refine ⟨?_, ty, c₁, c₂, c₃, ?_, h₂, h₃, hr₃, fun hopen => ?_⟩
  · simp [rejectUnknownType, h₁, hknown]
  · simp [typeName?, h₁, hty]
  · refine (Bool.not_eq_true _).mp ?_
    rw [Cursor.startsWith_char '(' rfl, hr₂]
    cases hx with
    | none => exact hopen
    | sized _ | unsized =>
      show (skip ('[' :: _)).head? ≠ some '('
      rw [skip_cons rfl]
      simp

/-- The type and the name of a declaration are read, then the rest up to the semicolon. -/
theorem Declares.read {q : Option Qualifier} (h : Declares env.types q s t)
    (hc : c.rest = s ++ ';' :: r) :
    rejectUnknownType env c = .ok () ∧ ∃ ty v c₁ c₂, typeName? env c = some (ty, c₁) ∧
      c₁.name? = some (v, c₂) ∧ c₂.startsWith "(" = false ∧ ∀ start, ∃ u c₃,
        declarationRest env start c₁ q ty v c₂ = .ok (u, c₃) ∧ u.unplaced = t.unplaced ∧
          c₃.rest = skip r := by
  cases h with
  | @bare _ _ _ v ty' hd =>
    obtain ⟨hok, ty, c₁, c₂, c₃, h₁, h₂, h₃, hr₃, hopen⟩ :=
      hd.read hc (noWord_cons (by decide)) (by rw [skip_cons rfl]; simp)
    rw [skip_cons rfl] at hr₃
    refine ⟨hok, ty, v, c₁, c₂, h₁, h₂, hopen (by rw [skip_cons rfl]; simp), fun start => ?_⟩
    have heq : c₃.symbol? "=" = none := Cursor.symbol?_eq_none '=' rfl (by rw [hr₃]; simp)
    obtain ⟨c₄, h₄, hr₄⟩ := Cursor.expect_of (r := r) ";" hr₃
    refine ⟨.valued .varDecl (env.pos c₁) (.name v) [typeTree q (env.pos start) ty'], c₄, ?_,
      by simp [typeTree, Label.unplaced], hr₄⟩
    rw [declarationRest, h₃]
    simp only [ok_bind, pure_bind, heq, h₄]
    rfl
  | @initial _ _ s s' v ty' i hd hi =>
    have hskip : skip (' ' :: '=' :: ' ' :: (s' ++ ';' :: r)) = '=' :: ' ' :: (s' ++ ';' :: r) := by
      rw [skip_cons_blank rfl, skip_cons rfl]
    obtain ⟨hok, ty, c₁, c₂, c₃, h₁, h₂, h₃, hr₃, hopen⟩ :=
      hd.read (r := ' ' :: '=' :: ' ' :: (s' ++ ';' :: r)) (by rw [hc]; simp)
        (noWord_cons (by decide)) (by rw [hskip]; simp)
    refine ⟨hok, ty, v, c₁, c₂, h₁, h₂, hopen (by rw [hskip]; simp), fun start => ?_⟩
    rw [hskip] at hr₃
    obtain ⟨c₄, h₄, hr₄⟩ := Cursor.symbol?_of (r := ' ' :: (s' ++ ';' :: r)) "=" hr₃
    rw [skip_cons_blank rfl, hi.skip_append] at hr₄
    have heq : c₄.startsWith "=" = false := by
      refine (Bool.not_eq_true _).mp ?_
      rw [Cursor.startsWith_char '=' rfl, hr₄]
      obtain ⟨ch, l, rfl, hs⟩ := hi.head
      rintro he
      cases he
      rcases hs with hs | hs | ⟨_, hs | hs⟩ <;> cases hs
    obtain ⟨u, c₅, h₅, hu, hr₅⟩ :=
      (hi.expression hr₄ (follows_closer (by decide))).require "an expression" c₄
    rw [skip_cons rfl] at hr₅
    obtain ⟨c₆, h₆, hr₆⟩ := Cursor.expect_of (r := r) ";" hr₅
    refine ⟨.valued .varDecl (env.pos c₁) (.name v) [typeTree q (env.pos start) ty', u], c₆, ?_,
      by simp [hu, typeTree, Label.unplaced], hr₆⟩
    rw [declarationRest, h₃]
    simp only [ok_bind, pure_bind, h₄, heq, requiredExpression, h₅, h₆, if_neg Bool.false_ne_true]
    rfl

/-! ### Simple statements -/

/-- A statement that starts with no keyword, brace or semicolon is an expression or a
declaration. -/
theorem statementOver_simple (hw : FirstWord s w) (hfree : ∀ kw ∈ statementWords, kw.toList ≠ w)
    (hc : c.rest = s ++ r) (hhead : c.rest.head? ≠ some '\x7b' ∧ c.rest.head? ≠ some ';') :
    statementOver env stmt c = simpleStatement env c := by
  have hkw : ∀ kw ∈ statementWords, c.keyword? kw = none := by
    intro kw hmem
    refine hw.keyword?_eq_none hc ?_ (hfree kw hmem)
    have : ∀ kw ∈ statementWords, ∀ ch ∈ kw.toList, Text.isWordChar ch = true := by decide
    exact this kw hmem
  have hbrace : ¬ c.startsWith "\x7b" = true := by
    rw [Cursor.startsWith_char '\x7b' rfl]; exact hhead.1
  have hsemi : c.symbol? ";" = none := Cursor.symbol?_eq_none ';' rfl hhead.2
  have hqual : (qualifier? c).isSome = false := by
    simp [qualifier?, Qualifier.all, findSome?, Qualifier.keyword, hkw "in" (by decide),
      hkw "out" (by decide), hkw "uniform" (by decide)]
  rw [statementOver, if_neg hbrace]
  simp only [hsemi, hkw "return" (by decide), hkw "if" (by decide), hqual]
  rfl

/-- What starts like an expression is read as one: no name follows its first word. -/
theorem simpleStatement_expression {rest : Text} (ho : Opening s w rest) (hc : c.rest = s) :
    simpleStatement env c = expressionStatement env c := by
  have hc' : c.rest = w ++ rest := hc.trans ho.split
  cases hn : c.name? with
  | none => simp [simpleStatement, rejectUnknownType, typeName?, hn]
  | some a =>
    obtain ⟨m, c₁⟩ := a
    have hr₁ := (Cursor.name?_eq_some ho.word ho.next hc' hn).2.2
    have hn₁ : c₁.name? = none := Cursor.name?_eq_none_of_head (by rw [hr₁]; exact ho.following)
    have hreject : rejectUnknownType env c = .ok () := by simp [rejectUnknownType, hn, hn₁]
    rw [simpleStatement, hreject]
    cases hty : env.types.get? m with
    | none => simp [typeName?, hn, hty]
    | some ty => simp [typeName?, hn, hty, hn₁]

/-- The outcome is the given statement, whatever its positions, and `r` remains. -/
def GivesStatement (t : Tree) (r : Text) (outcome : Parse (At (Option Tree))) : Prop :=
  ∃ u c, outcome = .ok (some u, c) ∧ u.unplaced = t.unplaced ∧ c.rest = r

theorem statementOver_expression (h : Written env.types 1 s t) (hc : c.rest = s ++ ';' :: r) :
    GivesStatement t (skip r) (statementOver env stmt c) := by
  obtain ⟨w, hw, hfree⟩ := h.firstWord
  obtain ⟨v, rest, ho⟩ := h.opening
  have hhead : c.rest.head? ≠ some '\x7b' ∧ c.rest.head? ≠ some ';' := by
    obtain ⟨ch, s', rfl, hs⟩ := h.head
    rw [hc]
    rcases hs with hs | rfl | ⟨_, rfl | rfl⟩
    · constructor <;> rintro he <;> cases he <;> cases hs
    all_goals exact ⟨by simp, by simp⟩
  obtain ⟨u, c₁, h₁, hu, hr₁⟩ :=
    (h.expression hc (follows_closer (by decide))).require "an expression" c
  rw [skip_cons rfl] at hr₁
  obtain ⟨c₂, h₂, hr₂⟩ := Cursor.expect_of (r := r) ";" hr₁
  refine ⟨u, c₂, ?_, hu, hr₂⟩
  rw [statementOver_simple (s := s ++ [';']) (r := r) hw hfree (by rw [hc]; simp) hhead,
    simpleStatement_expression (ho.symbol ';' rfl rfl) hc, expressionStatement]
  simp only [requiredExpression, h₁, h₂, ok_bind]
  rfl

theorem statementOver_declaration (h : Declares env.types none s t) (hc : c.rest = s ++ ';' :: r) :
    GivesStatement t (skip r) (statementOver env stmt c) := by
  obtain ⟨n, hn, hw⟩ := h.firstWord (r := ';' :: r)
  have hhead : c.rest.head? ≠ some '\x7b' ∧ c.rest.head? ≠ some ';' := by
    obtain ⟨ch, s', he, hch⟩ := hw.head hn
    rw [hc, he]
    constructor <;> rintro h <;> cases h <;> cases hch
  obtain ⟨hok, ty, v, c₁, c₂, h₁, h₂, _, hdecl⟩ := h.read hc
  obtain ⟨u, c₃, h₃, hu, hr₃⟩ := hdecl c
  refine ⟨u, c₃, ?_, hu, hr₃⟩
  rw [statementOver_simple (r := []) hw hn.not_statementWord (by rw [hc]; simp) hhead,
    simpleStatement, hok]
  simp only [ok_bind, h₁, h₂, h₃]
  rfl

/-! ### Returns -/

theorem statementOver_return (env : Env) (stmt : StmtParser) (hr : NoWord r)
    (hc : c.rest = "return".toList ++ r) :
    ∃ c₁, c₁.rest = skip r ∧ statementOver env stmt c = (do
      let (value, afterValue) ←
        match ← expression env c₁ with
        | none => pure ([], c₁)
        | some (t, afterValue) => pure ([t], afterValue)
      let afterSemicolon ← afterValue.expect ";"
      return (some (Tree.plain .ret (env.pos c) value), afterSemicolon)) := by
  obtain ⟨c₁, h₁, hr₁⟩ := Cursor.keyword?_of "return" hr hc
  refine ⟨c₁, hr₁, ?_⟩
  have hbrace : ¬ c.startsWith "\x7b" = true := by
    rw [Cursor.startsWith_char '\x7b' rfl, hc]; simp
  have hsemi : c.symbol? ";" = none := Cursor.symbol?_eq_none ';' rfl (by rw [hc]; simp)
  rw [statementOver, if_neg hbrace, hsemi]
  dsimp only
  generalize c.keyword? "return" = word at h₁ ⊢
  subst h₁
  rfl

theorem statementOver_leave (hc : c.rest = "return".toList ++ ';' :: r) :
    GivesStatement (.plain .ret pos []) (skip r) (statementOver env stmt c) := by
  obtain ⟨c₁, hr₁, he⟩ := statementOver_return env stmt (noWord_cons rfl) hc
  rw [skip_cons rfl] at hr₁
  have hnone : expression env c₁ = .ok none :=
    expressionWithin_none (by decide : ';' ∈ closers) (by rw [hr₁]; rfl) (Nat.succ_pos _)
  obtain ⟨c₂, h₂, hr₂⟩ := Cursor.expect_of (r := r) ";" hr₁
  refine ⟨.plain .ret (env.pos c) [], c₂, ?_, by simp, hr₂⟩
  rw [he, hnone]
  simp only [ok_bind, pure_bind, h₂]
  rfl

theorem statementOver_leaveWith (h : Written env.types 1 s t)
    (hc : c.rest = "return".toList ++ ' ' :: (s ++ ';' :: r)) :
    GivesStatement (.plain .ret pos [t]) (skip r) (statementOver env stmt c) := by
  obtain ⟨c₁, hr₁, he⟩ := statementOver_return env stmt (noWord_cons rfl) hc
  rw [skip_cons_blank rfl, h.skip_append] at hr₁
  obtain ⟨u, c₂, h₂, hu, hr₂⟩ := h.expression hr₁ (follows_closer (by decide))
  rw [skip_cons rfl] at hr₂
  obtain ⟨c₃, h₃, hr₃⟩ := Cursor.expect_of (r := r) ";" hr₂
  refine ⟨.plain .ret (env.pos c) [u], c₃, ?_, by simp [hu], hr₃⟩
  rw [he, h₂]
  simp only [ok_bind, pure_bind, h₃]
  rfl

/-! ### Blocks and conditionals -/

/-- No alternative of a conditional stands next. -/
def NoElse (r : Text) : Prop := ∀ ⦃c : Cursor⦄, c.rest = r → c.keyword? "else" = none

theorem noElse_of_noWord (h : NoWord r) : NoElse r :=
  fun _ hc => keyword?_eq_none_of_noWord (by decide) (by decide) (by rw [hc]; exact h)

/-- The statement parser reads the text as the tree. -/
def ReadsStatement (stmt : StmtParser) (limit : Nat) (s : Text) (t : Tree) : Prop :=
  ∀ ⦃c : Cursor⦄ ⦃r : Text⦄, c.rest = s ++ r → c.rest.length < limit → NoElse (skip r) →
    GivesStatement t (skip r) (stmt c)

theorem skip_linesText {l : Line} (lines : List Line) (hb : Blank l.blank)
    (hs : ∀ r, skip (l.text ++ r) = l.text ++ r) (r : Text) :
    skip (linesText (l :: lines) ++ r) = l.text ++ (linesText lines ++ r) := by
  have : linesText (l :: lines) ++ r = l.blank ++ (l.text ++ (linesText lines ++ r)) := by
    simp [linesText]
  rw [this, skip_append_blanks hb, hs]

/-- The outcome is the given trees, whatever their positions, and `r` remains. -/
def GivesAll (ts : List Tree) (r : Text) (outcome : Parse (At (List Tree))) : Prop :=
  ∃ us c, outcome = .ok (us, c) ∧ us.map Tree.unplaced = ts.map Tree.unplaced ∧ c.rest = r

/-- A round of the loop reads the line, behind which `Next` holds of what follows. -/
structure ReadsLine (loop : Nat → Cursor → Parse (At (List Tree))) (Next : Text → Prop)
    (limit : Nat) (l : Line) : Prop where
  blank : Blank l.blank
  head : ∃ ch s, l.text = ch :: s ∧ isSpacing ch = false
  next : ∀ r, Next (l.text ++ r)
  round : ∀ ⦃c : Cursor⦄ ⦃r : Text⦄, c.rest = l.text ++ r → c.rest.length < limit → Next (skip r) →
    ∃ u c₁, u.unplaced = l.tree.unplaced ∧ c₁.rest = skip r ∧ ∀ n,
      loop (n + 1) c = (do let (us, c₂) ← loop n c₁; return (u :: us, c₂))

/-- Lines are read one after the other, up to the `last` of the text that ends the loop. -/
theorem loop_written {loop : Nat → Cursor → Parse (At (List Tree))} (Next : Text → Prop)
    (limit : Nat) (last : Text) (hnext : Next (skip last))
    (hend : ∀ n ⦃c : Cursor⦄, c.rest = skip last → GivesAll [] r (loop (n + 1) c)) :
    ∀ {lines : List Line} {n : Nat} {c : Cursor}, (∀ l ∈ lines, ReadsLine loop Next limit l) →
      c.rest = skip (linesText lines ++ last) → c.rest.length < limit → c.rest.length < n →
      GivesAll (lines.map Line.tree) r (loop n c) := by
  have hskip : ∀ {l : Line}, ReadsLine loop Next limit l →
      ∀ r, skip (l.text ++ r) = l.text ++ r := by
    intro l hl r
    obtain ⟨ch, s, he, hch⟩ := hl.head
    rw [he]
    exact skip_cons hch
  intro lines
  induction lines with
  | nil =>
    intro n c _ hc _ hn
    obtain ⟨m, rfl⟩ : ∃ m, n = m + 1 := ⟨n - 1, by omega⟩
    exact hend m hc
  | cons l lines ih =>
    intro n c hread hc hlim hn
    obtain ⟨m, rfl⟩ : ∃ m, n = m + 1 := ⟨n - 1, by omega⟩
    have hl := hread l (.head _)
    rw [skip_linesText _ hl.blank (hskip hl)] at hc
    have hfollows : Next (skip (linesText lines ++ last)) := by
      cases lines with
      | nil => exact hnext
      | cons l' lines =>
        have hl' := hread l' (by simp)
        rw [skip_linesText _ hl'.blank (hskip hl')]
        exact hl'.next _
    obtain ⟨u, c₁, hu, hr₁, hround⟩ := hl.round hc hlim hfollows
    have hlen : c₁.rest.length + 1 ≤ c.rest.length := by
      obtain ⟨ch, s, hs, _⟩ := hl.head
      have := length_skip_le (linesText lines ++ last)
      rw [hr₁, hc, hs]
      simp only [length_append, length_cons] at this ⊢
      omega
    obtain ⟨us, c₂, h₂, hus, hr₂⟩ := ih (n := m) (fun l hl => hread l (.tail _ hl))
      hr₁ (by omega) (by omega)
    refine ⟨u :: us, c₂, ?_, by simp only [map_cons, hu, hus], hr₂⟩
    rw [hround, h₂]
    rfl

theorem blockRest_written (hw : Blank w) (hblank : ∀ l ∈ lines, Blank l.blank)
    (hwritten : ∀ l ∈ lines, WrittenStatement env.types .statement l.text l.tree)
    (hread : ∀ l ∈ lines, ReadsStatement stmt limit l.text l.tree)
    (hc : c.rest = skip (linesText lines ++ (w ++ '\x7d' :: r))) (hlim : c.rest.length < limit)
    (hn : c.rest.length < n) : GivesAll (lines.map Line.tree) (skip r) (blockRest stmt n c) := by
  have hend : skip (w ++ '\x7d' :: r) = '\x7d' :: r := by rw [skip_append_blanks hw, skip_cons rfl]
  refine loop_written NoElse limit _ ?_ (fun m c hc => ?_) (fun l hl => ?_) hc hlim hn
  · rw [hend]
    exact noElse_of_noWord (noWord_cons rfl)
  · obtain ⟨c₁, h₁, hr₁⟩ := Cursor.symbol?_of (r := r) "\x7d" (hc.trans hend)
    exact ⟨[], c₁, by rw [blockRest, h₁], rfl, hr₁⟩
  · obtain ⟨ch, s, hs, hch, hne⟩ := (hwritten l hl).head
    refine ⟨hblank l hl, ⟨ch, s, hs, hch⟩, fun r _ hc => (hwritten l hl).noElse hc, ?_⟩
    intro c r hc hlim hnext
    obtain ⟨u, c₁, h₁, hu, hr₁⟩ := hread l hl hc hlim hnext
    have hclose : c.symbol? "\x7d" = none := by
      refine Cursor.symbol?_eq_none '\x7d' rfl ?_
      rw [hc, hs]
      rintro he
      cases he
      exact hne rfl
    have hmore : ¬ c.atEnd = true := by simp [Cursor.atEnd, hc, hs]
    refine ⟨u, c₁, hu, hr₁, fun n => ?_⟩
    rw [blockRest, hclose]
    simp only [if_neg hmore, h₁, ok_bind]
    rfl

/-- What reading a text of each form means: a statement is read as such, a block where
its brace stands next, and a conditional from its keyword on. -/
def ReadsForm (env : Env) : Form → Text → Tree → Prop
  | .statement, s, t => ∀ d, ReadsStatement (statementWithin env d) d s t
  | .braces, s, t => ∀ ⦃d : Nat⦄ ⦃c : Cursor⦄ ⦃r : Text⦄, c.rest = s ++ r → c.rest.length ≤ d →
      ∃ u c', block env (statementWithin env d) c = .ok (u, c') ∧ u.unplaced = t.unplaced ∧
        c'.rest = skip r
  | .conditional, s, t => ∀ ⦃d n : Nat⦄ ⦃c : Cursor⦄ ⦃r : Text⦄ (start : Cursor), c.rest = s ++ r →
      c.rest.length ≤ d → c.rest.length ≤ n → NoElse (skip r) →
      ∃ c₁, c.keyword? "if" = some c₁ ∧ ∃ u c',
        conditionalRest env (statementWithin env d) n start c₁ = .ok (u, c') ∧
        u.unplaced = t.unplaced ∧ c'.rest = skip r

theorem block_written (pos : Pos) (hblank : ∀ l ∈ lines, Blank l.blank)
    (hwritten : ∀ l ∈ lines, WrittenStatement env.types .statement l.text l.tree)
    (hread : ∀ l ∈ lines, ReadsStatement stmt limit l.text l.tree) (hw : Blank w)
    (hc : c.rest = '\x7b' :: (linesText lines ++ (w ++ '\x7d' :: r))) (hd : c.rest.length ≤ limit) :
    ∃ u c', block env stmt c = .ok (u, c') ∧
      u.unplaced = (Tree.plain .block pos (lines.map Line.tree)).unplaced ∧ c'.rest = skip r := by
  have hr₁ := Cursor.rest_after (c := c) (r := linesText lines ++ (w ++ '\x7d' :: r)) "\x7b" hc
  have hlen : (c.after "\x7b").rest.length < c.rest.length := by
    have := length_skip_le (linesText lines ++ (w ++ '\x7d' :: r))
    rw [hr₁, hc, length_cons]
    omega
  obtain ⟨us, c₂, h₂, hus, hr₂⟩ := blockRest_written hw (n := c.rest.length + 1) hblank hwritten
    hread hr₁ (by omega) (by omega)
  refine ⟨.plain .block (env.pos c) us, c₂, ?_, by simp [hus], hr₂⟩
  rw [block, h₂]
  rfl

theorem branch_braces (h : ReadsForm env .braces s t) (hs : s.head? = some '\x7b')
    (hc : c.rest = s ++ r) (hd : c.rest.length ≤ d) :
    ∃ u c', branch env (statementWithin env d) c = .ok (u, c') ∧ u.unplaced = t.unplaced ∧
      c'.rest = skip r := by
  have hbrace : c.startsWith "\x7b" = true := by
    rw [Cursor.startsWith_char '\x7b' rfl, hc, head?_append, hs]; rfl
  rw [branch, if_pos hbrace]
  exact h hc hd

section

variable (h : Written env.types 1 s a) (hy : ReadsForm env .braces s' t)
  (hs' : s'.head? = some '\x7b')
include h hy hs'

theorem conditional_steps
    (hc : c.rest = "if".toList ++ ' ' :: '(' :: (s ++ ')' :: ' ' :: (s' ++ r)))
    (hd : c.rest.length ≤ d) :
    ∃ c₁ c₂ c₃ c₄ c₅ : Cursor, ∃ u v : Tree, c.keyword? "if" = some c₁ ∧ c₁.expect "(" = .ok c₂ ∧
      requiredExpression env c₂ = .ok (u, c₃) ∧ c₃.expect ")" = .ok c₄ ∧
      branch env (statementWithin env d) c₄ = .ok (v, c₅) ∧
      u.unplaced = a.unplaced ∧ v.unplaced = t.unplaced ∧ c₅.rest = skip r := by
  obtain ⟨c₁, h₁, hr₁⟩ := Cursor.keyword?_of "if" (noWord_cons rfl) hc
  rw [skip_cons_blank rfl, skip_cons rfl] at hr₁
  obtain ⟨c₂, h₂, hr₂⟩ := Cursor.expect_of (r := s ++ ')' :: ' ' :: (s' ++ r)) "(" hr₁
  rw [h.skip_append] at hr₂
  obtain ⟨u, c₃, h₃, hu, hr₃⟩ :=
    (h.expression hr₂ (follows_closer (by decide))).require "an expression" c₂
  rw [skip_cons rfl] at hr₃
  obtain ⟨c₄, h₄, hr₄⟩ := Cursor.expect_of (r := ' ' :: (s' ++ r)) ")" hr₃
  have hskip : skip (' ' :: (s' ++ r)) = s' ++ r := by
    rw [skip_cons_blank rfl]
    cases s' with
    | nil => cases hs'
    | cons ch s' => cases hs'; exact skip_cons rfl
  rw [hskip] at hr₄
  have hlen : c₄.rest.length ≤ c.rest.length := by rw [hr₄, hc]; simp; omega
  obtain ⟨v, c₅, h₅, hv, hr₅⟩ := branch_braces hy hs' hr₄ (Nat.le_trans hlen hd)
  exact ⟨c₁, c₂, c₃, c₄, c₅, u, v, h₁, h₂, h₃, h₄, h₅, hu, hv, hr₅⟩

theorem readsForm_conditional :
    ReadsForm env .conditional ("if".toList ++ ' ' :: '(' :: (s ++ ')' :: ' ' :: s'))
      (.plain .conditional pos [a, t]) := by
  intro d n c r start hc hd hn helse
  obtain ⟨c₁, c₂, c₃, c₄, c₅, u, v, h₁, h₂, h₃, h₄, h₅, hu, hv, hr₅⟩ :=
    conditional_steps (r := r) h hy hs' (by rw [hc]; simp) hd
  have hlen : 0 < c.rest.length := by rw [hc]; simp
  obtain ⟨m, rfl⟩ : ∃ m, n = m + 1 := ⟨n - 1, by omega⟩
  refine ⟨c₁, h₁, .plain .conditional (env.pos start) [u, v], c₅, ?_, by simp [hu, hv], hr₅⟩
  rw [conditionalRest, h₂]
  simp only [ok_bind, h₃, h₄, h₅, helse hr₅]
  rfl

theorem readsForm_otherwise {s'' : Text} {b : Tree} (hf : f ≠ .statement)
    (hb : WrittenStatement env.types f s'' b) (hn : ReadsForm env f s'' b) :
    ReadsForm env .conditional
      ("if".toList ++ ' ' :: '(' :: (s ++ ')' :: ' ' :: (s' ++ ' ' :: ("else".toList ++ ' ' :: s''))))
      (.plain .conditional pos [a, t, b]) := by
  intro d n c r start hc hd hlim helse
  obtain ⟨c₁, c₂, c₃, c₄, c₅, u, v, h₁, h₂, h₃, h₄, h₅, hu, hv, hr₅⟩ :=
    conditional_steps (r := ' ' :: ("else".toList ++ ' ' :: (s'' ++ r))) h hy hs'
      (by rw [hc]; simp) hd
  have hr₅' : c₅.rest = "else".toList ++ ' ' :: (s'' ++ r) := by
    rw [hr₅, skip_cons_blank rfl]
    exact skip_cons rfl
  obtain ⟨c₆, h₆, hr₆⟩ := Cursor.keyword?_of "else" (noWord_cons rfl) hr₅'
  rw [skip_cons_blank rfl, hb.skip_append] at hr₆
  have hlen : c₆.rest.length + 1 ≤ c.rest.length := by rw [hr₆, hc]; simp; omega
  obtain ⟨m, rfl⟩ : ∃ m, n = m + 1 := ⟨n - 1, by omega⟩
  have hno : ∃ w c₇, (c₆.keyword? "if" = none ∧ branch env (statementWithin env d) c₆ = .ok (w, c₇) ∨
      ∃ afterIf, c₆.keyword? "if" = some afterIf ∧
        conditionalRest env (statementWithin env d) m c₆ afterIf = .ok (w, c₇)) ∧
        w.unplaced = b.unplaced ∧ c₇.rest = skip r := by
    cases f with
    | statement => exact absurd rfl hf
    | braces =>
      have hif : c₆.keyword? "if" = none := by
        refine keyword?_eq_none_of_noWord (by decide) (by decide) ?_
        intro ch hch
        rw [hr₆, head?_append, hb.braces_head] at hch
        cases hch
        rfl
      obtain ⟨w, c₇, h₇, hw, hr₇⟩ := branch_braces hn hb.braces_head hr₆ (by omega : _ ≤ d)
      exact ⟨w, c₇, .inl ⟨hif, h₇⟩, hw, hr₇⟩
    | conditional =>
      obtain ⟨c₇, h₇, w, c₈, h₈, hw, hr₈⟩ :=
        hn (d := d) (n := m) c₆ hr₆ (by omega) (by omega) helse
      exact ⟨w, c₈, .inr ⟨c₇, h₇, h₈⟩, hw, hr₈⟩
  obtain ⟨w, c₇, h₇, hw, hr₇⟩ := hno
  refine ⟨c₁, h₁, .plain .conditional (env.pos start) [u, v, w], c₇, ?_, by simp [hu, hv, hw], hr₇⟩
  rw [conditionalRest, h₂]
  simp only [ok_bind, h₃, h₄, h₅, h₆]
  rcases h₇ with ⟨hif, h₇⟩ | ⟨afterIf, hif, h₇⟩
  · simp only [hif, h₇, ok_bind]
    rfl
  · simp only [hif, h₇, ok_bind]
    rfl

end

/-! ### Every statement -/

/-- **A written statement is read as its tree.** -/
theorem WrittenStatement.reads (h : WrittenStatement env.types f s t) : ReadsForm env f s t := by
  induction h with
  | expression h =>
    intro d c r hc hd _
    obtain ⟨e, rfl⟩ : ∃ e, d = e + 1 := ⟨d - 1, by omega⟩
    exact statementOver_expression h (by rw [hc]; simp)
  | declaration h =>
    intro d c r hc hd _
    obtain ⟨e, rfl⟩ : ∃ e, d = e + 1 := ⟨d - 1, by omega⟩
    exact statementOver_declaration h (by rw [hc]; simp)
  | leave =>
    intro d c r hc hd _
    obtain ⟨e, rfl⟩ : ∃ e, d = e + 1 := ⟨d - 1, by omega⟩
    exact statementOver_leave (by rw [hc]; simp)
  | leaveWith h =>
    intro d c r hc hd _
    obtain ⟨e, rfl⟩ : ∃ e, d = e + 1 := ⟨d - 1, by omega⟩
    exact statementOver_leaveWith h (by rw [hc]; simp)
  | braces lines hblank hwritten hw ih =>
    intro d c r hc hd
    exact block_written _ hblank hwritten (fun l hl => ih l hl d) hw (by rw [hc]; simp) hd
  | conditional h hy ih => exact readsForm_conditional h ih hy.braces_head
  | otherwise h hy hf hn ihy ihn => exact readsForm_otherwise h ihy hy.braces_head hf hn ihn
  | ofBraces h ih =>
    intro d c r hc hd _
    obtain ⟨e, rfl⟩ : ∃ e, d = e + 1 := ⟨d - 1, by omega⟩
    obtain ⟨u, c', he, hu, hr⟩ := ih (d := e) hc (by omega)
    have hbrace : c.startsWith "\x7b" = true := by
      rw [Cursor.startsWith_char '\x7b' rfl, hc, head?_append, h.braces_head]; rfl
    refine ⟨u, c', ?_, hu, hr⟩
    rw [statementWithin, statementOver, if_pos hbrace, he]
    rfl
  | @ofConditional s t h ih =>
    intro d c r hc hd helse
    obtain ⟨e, rfl⟩ : ∃ e, d = e + 1 := ⟨d - 1, by omega⟩
    obtain ⟨c₁, h₁, u, c', he, hu, hr⟩ :=
      ih (d := e) (n := c.rest.length + 1) c hc (by omega) (by omega) helse
    have hhead : c.rest.head? = some 'i' := by
      rw [hc]
      cases h <;> rfl
    have hword : ∃ w, "return".toList ≠ w ∧ FirstWord s w := by
      cases h <;> exact ⟨"if".toList, by decide, by decide, ' ', _, rfl, rfl⟩
    obtain ⟨w, hne, hw⟩ := hword
    have hbrace : ¬ c.startsWith "\x7b" = true := by
      rw [Cursor.startsWith_char '\x7b' rfl, hhead]; simp
    have hsemi : c.symbol? ";" = none := Cursor.symbol?_eq_none ';' rfl (by rw [hhead]; simp)
    have hret : c.keyword? "return" = none := hw.keyword?_eq_none hc (by decide) hne
    refine ⟨u, c', ?_, hu, hr⟩
    rw [statementWithin, statementOver, if_neg hbrace]
    simp only [hsemi, hret, h₁, he, ok_bind]
    rfl

theorem WrittenStatement.reads_statement (h : WrittenStatement env.types .statement s t)
    (limit : Nat) : ReadsStatement (statement env) limit s t :=
  fun _ _ hc _ helse => h.reads _ hc (Nat.lt_succ_self _) helse

/-- **Written statements are read as a block of them.** -/
theorem statements_written (pos : Pos) (hblank : ∀ l ∈ lines, Blank l.blank)
    (hwritten : ∀ l ∈ lines, WrittenStatement env.types .statement l.text l.tree) :
    ∃ u c, statements env (Cursor.start (linesText lines)) = .ok (u, c) ∧
      u.unplaced = (Tree.plain .block pos (lines.map Line.tree)).unplaced ∧ c.rest = [] := by
  have hloop : GivesAll (lines.map Line.tree) [] (statementsRest env
      ((Cursor.start (linesText lines)).rest.length + 1) (Cursor.start (linesText lines))) := by
    refine loop_written _ ((Cursor.start (linesText lines)).rest.length + 1) []
      (noElse_of_noWord fun _ h => (by cases h)) (fun m c hc => ?_) (fun l hl => ?_)
      (by rw [append_nil]; exact Cursor.rest_start _) (Nat.lt_succ_self _) (Nat.lt_succ_self _)
    · have hend : c.atEnd = true := by simp [Cursor.atEnd, show c.rest = [] from hc]
      exact ⟨[], c, by rw [statementsRest, if_pos hend], rfl, hc⟩
    · obtain ⟨ch, s, hs, hch, _⟩ := (hwritten l hl).head
      refine ⟨hblank l hl, ⟨ch, s, hs, hch⟩, fun r _ hc => (hwritten l hl).noElse hc, ?_⟩
      intro c r hc hlim hnext
      obtain ⟨u, c₁, h₁, hu, hr₁⟩ := (hwritten l hl).reads_statement _ hc hlim hnext
      have hmore : ¬ c.atEnd = true := by simp [Cursor.atEnd, hc, hs]
      refine ⟨u, c₁, hu, hr₁, fun n => ?_⟩
      rw [statementsRest, if_neg hmore, h₁]
      rfl
  obtain ⟨us, c, h₁, hus, hr⟩ := hloop
  refine ⟨.plain .block (env.pos (Cursor.start (linesText lines))) us, c, ?_, by simp [hus], hr⟩
  rw [statements, h₁]
  rfl

/-! ### Functions -/

theorem WrittenParameter.skip_append (h : WrittenParameter env.types s t) (r : Text) :
    skip (s ++ r) = s ++ r := by
  cases h with
  | mk hd =>
    obtain ⟨n, hn, hw⟩ := hd.firstWord
    obtain ⟨ch, s', rfl, hch⟩ := hw.head hn
    exact skip_cons (isSpacing_of_isWordChar hch)

theorem WrittenParameter.read {ch : Char} (h : WrittenParameter env.types s t)
    (hc : c.rest = s ++ ch :: r) (hch : ch = ',' ∨ ch = ')') :
    Gives t (ch :: r) (parameter env c) := by
  cases h with
  | @mk _ _ _ v ty' hd =>
    have hblank : isSpacing ch = false := by rcases hch with rfl | rfl <;> rfl
    have hword : Text.isWordChar ch = false := by rcases hch with rfl | rfl <;> rfl
    obtain ⟨hok, ty, c₁, c₂, c₃, h₁, h₂, h₃, hr₃, _⟩ := hd.read hc (noWord_cons hword)
      (by rw [skip_cons hblank]; rcases hch with rfl | rfl <;> simp)
    rw [skip_cons hblank] at hr₃
    refine ⟨.valued .varDecl (env.pos c) (.name v) [typeTree none (env.pos c) ty'], c₃, ?_,
      by simp [typeTree, Label.unplaced], hr₃⟩
    rw [parameter, hok]
    simp only [ok_bind, h₁, h₂, h₃]
    rfl

theorem parameter_none (h : c.rest.head? = some ')') : parameter env c = .ok none := by
  have hname : c.name? = none := Cursor.name?_eq_none_of_head (by
    intro ch hch
    rw [h] at hch
    cases hch
    rfl)
  unfold parameter rejectUnknownType typeName?
  rw [hname]
  rfl

theorem functionRest_read {tpos ppos : Pos} {params : List (Text × Tree)} {body : Tree}
    (start : Cursor) (hp : ∀ p ∈ params, WrittenParameter env.types p.1 p.2)
    (hb : WrittenStatement env.types .braces s body)
    (hc : c.rest = '(' :: (commas (params.map Prod.fst) ++ ')' :: ' ' :: (s ++ r))) :
    ∃ u c', functionRest env start ty v c = .ok (u, c') ∧
      u.unplaced = (Tree.valued .function pos (.name v)
        [typeTree none tpos ty, .plain .params ppos (params.map Prod.snd), body]).unplaced ∧
      c'.rest = skip r := by
  have hread : ReadsItems (parameter env) (c.rest.length + 1) params := fun p hmem =>
    ⟨(hp p hmem).skip_append, fun _ _ _ hc _ hch => (hp p hmem).read hc hch⟩
  have hr₁ := Cursor.rest_after (c := c)
    (r := commas (params.map Prod.fst) ++ ')' :: ' ' :: (s ++ r)) "(" hc
  rw [skip_commas fun p hp => (hread p hp).1] at hr₁
  have hlen : (c.after "(").rest.length < c.rest.length + 1 := by
    rw [hr₁, hc, length_cons]
    omega
  obtain ⟨us, c₂, h₂, hus, hr₂⟩ := commaList_written hread
    (fun hnil => by subst hnil; exact parameter_none (by rw [hr₁]; rfl)) hr₁ hlen
  obtain ⟨c₃, h₃, hr₃⟩ := Cursor.expect_of (r := ' ' :: (s ++ r)) ")" hr₂
  rw [skip_cons_blank rfl, hb.skip_append] at hr₃
  have hbrace : c₃.startsWith "\x7b" = true := by
    rw [Cursor.startsWith_char '\x7b' rfl, hr₃, head?_append, hb.braces_head]; rfl
  cases hb with
  | @braces bpos lines w hblank hwritten hw =>
    obtain ⟨b, c₄, h₄, hb', hr₄⟩ := block_written bpos hblank hwritten
      (fun l hl => (hwritten l hl).reads_statement _) hw (c := c₃) (r := r) (by rw [hr₃]; simp)
      (Nat.le_refl _)
    refine ⟨.valued .function (env.pos start) (.name v) [typeTree none (env.pos start) ty,
      .plain .params (env.pos c) us, b], c₄, ?_, ?_, hr₄⟩
    · rw [functionRest, h₂]
      simp only [ok_bind, h₃, hbrace, if_true, h₄]
      rfl
    · simp only [Tree.unplaced_valued, map_cons, map_nil, Tree.unplaced_plain, hus, hb',
        typeTree, Tree.unplaced_node, Label.unplaced]

/-! ### Programs -/

theorem qualifier?_eq_none (hw : FirstWord s w) (hfree : ∀ kw ∈ statementWords, kw.toList ≠ w)
    (hc : c.rest = s ++ r) : qualifier? c = none := by
  have hkw : ∀ q : Qualifier, c.keyword? q.keyword = none := by
    intro q
    cases q <;> exact hw.keyword?_eq_none hc (by decide) (hfree _ (by decide))
  simp [qualifier?, Qualifier.all, findSome?, hkw]

theorem qualifier?_of (q : Qualifier) (hc : c.rest = q.keyword.toList ++ ' ' :: r) :
    ∃ c', qualifier? c = some (q, c') ∧ c'.rest = skip r := by
  obtain ⟨c₁, h₁, hr₁⟩ := Cursor.keyword?_of q.keyword (noWord_cons rfl) hc
  rw [skip_cons_blank rfl] at hr₁
  have hother : ∀ p : Qualifier, p ≠ q → c.keyword? p.keyword = none := by
    intro p hne
    have hword : ∀ p : Qualifier, ∀ ch ∈ p.keyword.toList, Text.isWordChar ch = true := by
      intro p; cases p <;> decide
    refine Cursor.keyword?_eq_none (hword q) (noWord_cons rfl) hc (hword p) ?_
    cases p <;> cases q <;> first | exact absurd rfl hne | decide
  refine ⟨c₁, ?_, hr₁⟩
  cases q <;>
    simp [qualifier?, Qualifier.all, findSome?, h₁, hother .input, hother .output]

theorem WrittenItem.read (h : WrittenItem env.types s t) (hc : c.rest = s ++ r) :
    ∃ u c', item env c = .ok (u, c') ∧ u.unplaced = t.unplaced ∧ c'.rest = skip r := by
  cases h with
  | @declaration q s t h =>
    obtain ⟨n, hn, hw⟩ := h.firstWord (r := ';' :: r)
    have hread : ∀ {c₀ : Cursor}, c₀.rest = s ++ ';' :: r → qualifier? c = q.map (·, c₀) →
        (q = none → c₀ = c) →
        ∃ u c', item env c = .ok (u, c') ∧ u.unplaced = t.unplaced ∧ c'.rest = skip r := by
      intro c₀ hr₀ hq hnone
      obtain ⟨hok, ty, v, c₁, c₂, h₁, h₂, hopen, hdecl⟩ := h.read hr₀
      obtain ⟨u, c₃, h₃, hu, hr₃⟩ := hdecl c
      refine ⟨u, c₃, ?_, hu, hr₃⟩
      rw [item, hq]
      cases q with
      | none =>
        cases hnone rfl
        simp only [Option.map_none, hok, ok_bind, h₁, h₂, hopen, Bool.and_false,
          if_neg Bool.false_ne_true, h₃]
      | some q =>
        simp only [Option.map_some, hok, ok_bind, h₁, h₂, hopen, Bool.and_false,
          if_neg Bool.false_ne_true, h₃]
    cases q with
    | none =>
      have hc' : c.rest = s ++ ';' :: r := by rw [hc]; simp [qualified]
      exact hread hc' (qualifier?_eq_none (r := []) hw hn.not_statementWord (by simp [hc']))
        fun _ => rfl
    | some q =>
      obtain ⟨c₀, h₀, hr₀⟩ := qualifier?_of (c := c) (r := s ++ ';' :: r) q
        (by rw [hc]; simp [qualified])
      obtain ⟨ch, s', he, hch⟩ := hw.head hn
      rw [he, skip_cons (isSpacing_of_isWordChar hch), ← he] at hr₀
      exact hread hr₀ h₀ fun hq => by cases hq
  | @function pos tpos ppos n v ty params s body hn hty hv hp hb =>
    have hc' : c.rest = n.toList ++ ' ' :: (v.toList ++ '(' ::
        (commas (params.map Prod.fst) ++ ')' :: ' ' :: (s ++ r))) := by rw [hc]; simp
    have hqual : qualifier? c = none :=
      qualifier?_eq_none (r := []) ⟨hn.word, ' ', _, hc', rfl⟩ hn.not_statementWord (by simp)
    obtain ⟨c₁, h₁, hr₁⟩ := Cursor.name?_of hn (noWord_cons rfl) hc'
    have hskip : ∀ r, skip (' ' :: (v.toList ++ r)) = v.toList ++ r := by
      intro r
      obtain ⟨ch, l, hl, hs⟩ := hv.cons
      rw [skip_cons_blank rfl, hl]
      exact skip_cons (isSpacing_of_isWordChar (Text.isWordChar_of_isWordStart hs))
    rw [hskip] at hr₁
    obtain ⟨c₂, h₂, hr₂⟩ := Cursor.name?_of hv (noWord_cons rfl) hr₁
    rw [skip_cons rfl] at hr₂
    have hopen : c₂.startsWith "(" = true :=
      (Cursor.startsWith_char '(' rfl).2 (by rw [hr₂]; rfl)
    have hknown : env.types.contains n = true := by simp [Table.contains, hty]
    obtain ⟨u, c₃, h₃, hu, hr₃⟩ := functionRest_read c hp hb hr₂
    refine ⟨u, c₃, ?_, hu, hr₃⟩
    have hreject : rejectUnknownType env c = .ok () := by simp [rejectUnknownType, h₁, hknown]
    have htype : typeName? env c = some (ty, c₁) := by simp [typeName?, h₁, hty]
    rw [item, hqual]
    simp only [hreject, ok_bind, htype, h₂, hopen, Option.isNone_none, Bool.and_self, if_true]
    exact h₃

theorem WrittenItem.head (h : WrittenItem env.types s t) :
    ∃ ch s', s = ch :: s' ∧ Text.isWordChar ch = true := by
  cases h with
  | @declaration q s t h =>
    cases q with
    | none =>
      obtain ⟨n, hn, hw⟩ := h.firstWord (r := [';'])
      exact hw.head hn
    | some q => cases q <;> exact ⟨_, _, rfl, rfl⟩
  | function params hn _ _ _ _ =>
    obtain ⟨ch, l, hl, hs⟩ := hn.cons
    exact ⟨ch, _, by rw [hl]; rfl, Text.isWordChar_of_isWordStart hs⟩

/-- **A written program is read as its tree.** -/
theorem WrittenProgram.read (h : WrittenProgram env.types s t) :
    ∃ u c, program env (Cursor.start s) = .ok (u, c) ∧ u.unplaced = t.unplaced ∧ c.rest = [] := by
  obtain @⟨_, lines, w, hblank, hwritten, hw⟩ := h
  have hloop : GivesAll (lines.map Line.tree) [] (programRest env
      ((Cursor.start (linesText lines ++ w)).rest.length + 1)
      (Cursor.start (linesText lines ++ w))) := by
    have hend : skip w = [] := by simpa using skip_append_blanks (s := []) hw
    refine loop_written (fun _ => True) ((Cursor.start (linesText lines ++ w)).rest.length + 1) w
      trivial (fun m c hc => ?_) (fun l hl => ?_) (Cursor.rest_start _) (Nat.lt_succ_self _) (Nat.lt_succ_self _)
    · rw [hend] at hc
      have hend : c.atEnd = true := by simp [Cursor.atEnd, hc]
      exact ⟨[], c, by rw [programRest, if_pos hend], rfl, hc⟩
    · obtain ⟨ch, s, hs, hch⟩ := (hwritten l hl).head
      refine ⟨hblank l hl, ⟨ch, s, hs, isSpacing_of_isWordChar hch⟩, fun _ => trivial, ?_⟩
      intro c r hc _ _
      obtain ⟨u, c₁, h₁, hu, hr₁⟩ := (hwritten l hl).read hc
      have hmore : ¬ c.atEnd = true := by simp [Cursor.atEnd, hc, hs]
      have hsemi : c.symbol? ";" = none := by
        refine Cursor.symbol?_eq_none ';' rfl ?_
        rw [hc, hs]
        rintro he
        cases he
        cases hch
      refine ⟨u, c₁, hu, hr₁, fun n => ?_⟩
      rw [programRest, if_neg hmore, hsemi]
      simp only [h₁, ok_bind]
  obtain ⟨us, c, h₁, hus, hr⟩ := hloop
  refine ⟨.plain .block (env.lines.pos 0) us, c, ?_, by simp [hus], hr⟩
  rw [program, h₁]
  rfl

end VecLang.Grammar
