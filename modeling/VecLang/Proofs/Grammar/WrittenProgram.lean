import VecLang.Proofs.Grammar.Written

/-!
# Written statements and programs

The texts of declarations, statements, functions and programs, as `Written` gives
those of expressions. Blanks may stand in front of every statement and item.

* `Opening`: an expression starts with one word at most, and with no keyword of a
  statement.
* `WrittenStatement.head`, `WrittenStatement.noElse`: how a statement can start.
-/

namespace VecLang.Grammar

variable {types : TypeTable} {k : Nat} {s r : Text} {t : Tree} {w rest : Text} {n : String}
  {f : Form}

/-- The words that start what is no expression. -/
def statementWords : List String := ["if", "else", "return", "in", "out", "uniform"]

/-- The text starts with one word, perhaps an empty one, that is no keyword of a
statement and that no other word follows. -/
structure Opening (s : Text) (w rest : Text) : Prop where
  split : s = w ++ rest
  word : ∀ ch ∈ w, Text.isWordChar ch = true
  next : NoWord rest
  following : NoWord (skip rest)
  free : ∀ kw ∈ statementWords, kw.toList ≠ w

theorem Opening.append (h : Opening s w rest) (hr : NoWord r) (hr' : NoWord (skip r)) :
    Opening (s ++ r) w (rest ++ r) where
  split := by rw [h.split, List.append_assoc]
  word := h.word
  next := noWord_append h.next hr
  following := by
    cases hs : skip rest with
    | nil =>
      have hskip : skip (rest ++ r) = skip r := by
        unfold skip at hs ⊢
        rw [List.dropWhile_append, hs]
        rfl
      rw [hskip]
      exact hr'
    | cons ch l =>
      have hskip : skip (rest ++ r) = ch :: l ++ r := by
        unfold skip at hs ⊢
        rw [List.dropWhile_append, hs]
        rfl
      rw [hskip]
      exact noWord_cons (h.following ch (by rw [hs]; rfl))
  free := h.free

theorem Opening.symbol (ch : Char) (h : Opening s w rest) (hw : Text.isWordChar ch = false)
    (hb : isSpacing ch = false) : Opening (s ++ ch :: r) w (rest ++ ch :: r) :=
  h.append (noWord_cons hw) (by rw [skip_cons hb]; exact noWord_cons hw)

theorem Opening.blank (ch : Char) (h : Opening s w rest) (hw : Text.isWordChar ch = false)
    (hb : isSpacing ch = false) : Opening (s ++ ' ' :: ch :: r) w (rest ++ ' ' :: ch :: r) :=
  h.append (noWord_cons rfl) (by rw [skip_cons_blank rfl, skip_cons hb]; exact noWord_cons hw)

theorem opening_symbol (ch : Char) (h : Text.isWordChar ch = false) (hb : isSpacing ch = false) :
    Opening (ch :: s) [] (ch :: s) where
  split := rfl
  word := by simp
  next := noWord_cons h
  following := by rw [skip_cons hb]; exact noWord_cons h
  free := by decide

theorem opening_word (h : ∀ ch ∈ w, Text.isWordChar ch = true)
    (hfree : ∀ kw ∈ statementWords, kw.toList ≠ w) : Opening w w [] where
  split := (List.append_nil w).symm
  word := h
  next := noWord_nil
  following := noWord_nil
  free := hfree

theorem opening_digits (h : ∀ ch ∈ w, ch.isDigit = true) : Opening w w [] := by
  refine opening_word (fun ch hch => isWordChar_of_isDigit (h ch hch)) fun kw hkw he => ?_
  have hfact : ∀ kw ∈ statementWords, ∃ ch ∈ kw.toList, ch.isDigit = false := by decide
  obtain ⟨ch, hch, hd⟩ := hfact kw hkw
  rw [he] at hch
  rw [h ch hch] at hd
  cases hd

theorem opening_name (h : IsName n) : Opening n.toList n.toList [] := by
  refine opening_word h.word fun kw hkw he => ?_
  have hfree := h.free
  have hsub : ∀ kw ∈ statementWords, keywords.contains kw = true := by decide
  rw [← String.toList_inj.1 he, hsub kw hkw] at hfree
  cases hfree

theorem Written.opening (h : Written types k s t) : ∃ w rest, Opening s w rest := by
  induction h with
  | int _ => exact ⟨_, _, opening_digits toDigits_isDigit⟩
  | float hw _ _ _ => exact ⟨_, _, (opening_digits hw).symbol '.' rfl rfl⟩
  | bool b => cases b <;> exact ⟨_, _, opening_word (by decide) (by decide)⟩
  | name hn _ => exact ⟨_, _, opening_name hn⟩
  | construct _ hn _ _ _ => exact ⟨_, _, (opening_name hn).symbol '(' rfl rfl⟩
  | parens _ _ => exact ⟨_, _, opening_symbol '(' rfl rfl⟩
  | index _ _ ih _ => obtain ⟨_, _, ho⟩ := ih; exact ⟨_, _, ho.symbol '[' rfl rfl⟩
  | member _ _ _ ih => obtain ⟨_, _, ho⟩ := ih; exact ⟨_, _, ho.symbol '.' rfl rfl⟩
  | call _ _ _ _ ih _ => obtain ⟨_, _, ho⟩ := ih; exact ⟨_, _, ho.symbol '(' rfl rfl⟩
  | unary hop _ _ =>
    rcases hop with rfl | rfl
    · exact ⟨_, _, opening_symbol '-' rfl rfl⟩
    · exact ⟨_, _, opening_symbol '!' rfl rfl⟩
  | @binary _ op _ _ _ _ _ _ _ ih _ =>
    obtain ⟨_, _, ho⟩ := ih
    have hop : ∃ ch l, op.symbol.toList = ch :: l ∧ Text.isWordChar ch = false ∧
        isSpacing ch = false := by
      cases op <;> exact ⟨_, _, rfl, rfl, rfl⟩
    obtain ⟨ch, l, hl, hw, hb⟩ := hop
    rw [hl]
    exact ⟨_, _, ho.blank ch hw hb⟩
  | ternary _ _ _ ih _ _ => obtain ⟨_, _, ho⟩ := ih; exact ⟨_, _, ho.blank '?' rfl rfl⟩
  | assign _ _ ih _ => obtain ⟨_, _, ho⟩ := ih; exact ⟨_, _, ho.blank '=' rfl rfl⟩
  | looser _ _ _ ih => exact ih

/-- The brackets behind a declared name, the type in front of it, and the type of both. -/
inductive Suffix : Ty → Ty → Text → Prop
  | none {t : Ty} : Suffix t t []
  | sized {t : Ty} {n : Nat} : n ≤ maxSize →
      Suffix t (.array t n none) ('[' :: (Nat.toDigits 10 n ++ [']']))
  | unsized {t : Ty} : Suffix t (.unsized t none) ['[', ']']

inductive Declarator (types : TypeTable) : Text → String → Ty → Prop
  | mk {n v : String} {t t' : Ty} {x : Text} : IsName n → types.get? n = some t → IsName v →
      Suffix t t' x → Declarator types (n.toList ++ ' ' :: (v.toList ++ x)) v t'

def typeTree (q : Option Qualifier) (pos : Pos) (t : Ty) : Tree :=
  .node { kind := .varType, value := some (.type t), qualifier := q, pos := pos } []

/-- A text behind the keyword of a qualifier, if there is one. -/
def qualified : Option Qualifier → Text → Text
  | none, s => s
  | some q, s => q.keyword.toList ++ ' ' :: s

/-- The text writes the declaration, from behind its qualifier up to its semicolon. -/
inductive Declares (types : TypeTable) (q : Option Qualifier) : Text → Tree → Prop
  | bare {pos tpos : Pos} {s : Text} {v : String} {t : Ty} : Declarator types s v t →
      Declares types q s (.valued .varDecl pos (.name v) [typeTree q tpos t])
  | initial {pos tpos : Pos} {s s' : Text} {v : String} {t : Ty} {i : Tree} :
      Declarator types s v t → Written types 1 s' i →
      Declares types q (s ++ ' ' :: '=' :: ' ' :: s')
        (.valued .varDecl pos (.name v) [typeTree q tpos t, i])

def Blank (w : Text) : Prop := ∀ ch ∈ w, isSpacing ch = true

/-- What a text of statements is: any statement, a block in braces, or a conditional. -/
inductive Form where
  | statement
  | braces
  | conditional
deriving DecidableEq

/-- A line of a text: the blanks in front, the text and the tree that it writes. -/
structure Line where
  blank : Text
  text : Text
  tree : Tree

def linesText (lines : List Line) : Text := lines.flatMap fun l => l.blank ++ l.text

inductive WrittenStatement (types : TypeTable) : Form → Text → Tree → Prop
  | expression {s : Text} {t : Tree} : Written types 1 s t →
      WrittenStatement types .statement (s ++ [';']) t
  | declaration {s : Text} {t : Tree} : Declares types none s t →
      WrittenStatement types .statement (s ++ [';']) t
  | leave {pos : Pos} :
      WrittenStatement types .statement ("return".toList ++ [';']) (.plain .ret pos [])
  | leaveWith {pos : Pos} {s : Text} {t : Tree} : Written types 1 s t →
      WrittenStatement types .statement ("return".toList ++ ' ' :: (s ++ [';'])) (.plain .ret pos [t])
  | braces {pos : Pos} (lines : List Line) {w : Text} : (∀ l ∈ lines, Blank l.blank) →
      (∀ l ∈ lines, WrittenStatement types .statement l.text l.tree) → Blank w →
      WrittenStatement types .braces ('\x7b' :: (linesText lines ++ (w ++ ['\x7d'])))
        (.plain .block pos (lines.map Line.tree))
  | conditional {pos : Pos} {s s' : Text} {c yes : Tree} : Written types 1 s c →
      WrittenStatement types .braces s' yes →
      WrittenStatement types .conditional
        ("if".toList ++ ' ' :: '(' :: (s ++ ')' :: ' ' :: s')) (.plain .conditional pos [c, yes])
  | otherwise {pos : Pos} {f : Form} {s s' s'' : Text} {c yes no : Tree} : Written types 1 s c →
      WrittenStatement types .braces s' yes → f ≠ .statement → WrittenStatement types f s'' no →
      WrittenStatement types .conditional
        ("if".toList ++ ' ' :: '(' :: (s ++ ')' :: ' ' :: (s' ++ ' ' :: ("else".toList ++ ' ' :: s''))))
        (.plain .conditional pos [c, yes, no])
  | ofBraces {s : Text} {t : Tree} : WrittenStatement types .braces s t →
      WrittenStatement types .statement s t
  | ofConditional {s : Text} {t : Tree} : WrittenStatement types .conditional s t →
      WrittenStatement types .statement s t

inductive WrittenParameter (types : TypeTable) : Text → Tree → Prop
  | mk {pos tpos : Pos} {s : Text} {v : String} {t : Ty} : Declarator types s v t →
      WrittenParameter types s (.valued .varDecl pos (.name v) [typeTree none tpos t])

inductive WrittenItem (types : TypeTable) : Text → Tree → Prop
  | declaration {q : Option Qualifier} {s : Text} {t : Tree} : Declares types q s t →
      WrittenItem types (qualified q s ++ [';']) t
  | function {pos tpos ppos : Pos} {n v : String} {t : Ty} (params : List (Text × Tree)) {s : Text}
      {body : Tree} : IsName n → types.get? n = some t → IsName v →
      (∀ p ∈ params, WrittenParameter types p.1 p.2) → WrittenStatement types .braces s body →
      WrittenItem types
        (n.toList ++ ' ' :: (v.toList ++ '(' :: (commas (params.map Prod.fst) ++ ')' :: ' ' :: s)))
        (.valued .function pos (.name v)
          [typeTree none tpos t, .plain .params ppos (params.map Prod.snd), body])

inductive WrittenProgram (types : TypeTable) : Text → Tree → Prop
  | mk {pos : Pos} (lines : List Line) {w : Text} : (∀ l ∈ lines, Blank l.blank) →
      (∀ l ∈ lines, WrittenItem types l.text l.tree) → Blank w →
      WrittenProgram types (linesText lines ++ w) (.plain .block pos (lines.map Line.tree))

/-- The text starts with a word, perhaps an empty one, and goes on behind it. -/
structure FirstWord (s w : Text) : Prop where
  word : ∀ ch ∈ w, Text.isWordChar ch = true
  split : ∃ ch rest, s = w ++ ch :: rest ∧ Text.isWordChar ch = false

namespace FirstWord

variable {w : Text} {c : Cursor}

theorem keyword?_eq_none {kw : String} (h : FirstWord s w) (hc : c.rest = s ++ r)
    (hkw : ∀ ch ∈ kw.toList, Text.isWordChar ch = true) (hne : kw.toList ≠ w) :
    c.keyword? kw = none := by
  obtain ⟨ch, rest, rfl, hch⟩ := h.split
  refine Cursor.keyword?_eq_none (r := ch :: (rest ++ r)) h.word (noWord_cons hch) ?_ hkw hne
  rw [hc]
  simp

end FirstWord

theorem Declarator.firstWord {v : String} {ty : Ty} (h : Declarator types s v ty) :
    ∃ n : String, IsName n ∧ FirstWord s n.toList := by
  obtain ⟨hn, _, _, _⟩ := h
  exact ⟨_, hn, hn.word, ' ', _, rfl, rfl⟩

theorem IsName.not_statementWord (h : IsName n) : ∀ kw ∈ statementWords, kw.toList ≠ n.toList :=
  (opening_name h).free

theorem Written.firstWord (h : Written types 1 s t) :
    ∃ w, FirstWord (s ++ [';']) w ∧ ∀ kw ∈ statementWords, kw.toList ≠ w := by
  obtain ⟨w, rest, ho⟩ := h.opening
  refine ⟨w, ⟨ho.word, ?_⟩, ho.free⟩
  cases rest with
  | nil => exact ⟨';', [], by rw [ho.split]; simp, rfl⟩
  | cons ch rest => exact ⟨ch, rest ++ [';'], by rw [ho.split]; simp, ho.next ch rfl⟩

theorem Declares.firstWord {q : Option Qualifier} (h : Declares types q s t) :
    ∃ n : String, IsName n ∧ FirstWord (s ++ r) n.toList := by
  have hadd : ∀ {s w r : Text}, FirstWord s w → FirstWord (s ++ r) w := by
    rintro s w r ⟨hw, ch, rest, rfl, hch⟩
    exact ⟨hw, ch, rest ++ r, by simp, hch⟩
  cases h with
  | bare hd =>
    obtain ⟨n, hn, hf⟩ := hd.firstWord
    exact ⟨n, hn, hadd hf⟩
  | initial hd _ =>
    obtain ⟨n, hn, hf⟩ := hd.firstWord
    exact ⟨n, hn, hadd (hadd hf)⟩

theorem WrittenStatement.firstWord (h : WrittenStatement types f s t) :
    ∃ w, FirstWord s w ∧ "else".toList ≠ w := by
  induction h with
  | expression h =>
    obtain ⟨w, hf, hfree⟩ := h.firstWord
    exact ⟨w, hf, hfree _ (by decide)⟩
  | declaration h =>
    obtain ⟨n, hn, hf⟩ := h.firstWord
    exact ⟨n.toList, hf, hn.not_statementWord _ (by decide)⟩
  | leave => exact ⟨"return".toList, ⟨by decide, ';', _, rfl, rfl⟩, by decide⟩
  | leaveWith _ => exact ⟨"return".toList, ⟨by decide, ' ', _, rfl, rfl⟩, by decide⟩
  | braces _ _ _ _ _ => exact ⟨[], ⟨by simp, '\x7b', _, rfl, rfl⟩, by decide⟩
  | conditional _ _ _ | otherwise _ _ _ _ _ _ =>
    exact ⟨"if".toList, ⟨by decide, ' ', _, rfl, rfl⟩, by decide⟩
  | ofBraces _ ih | ofConditional _ ih => exact ih

theorem WrittenStatement.noElse {c : Cursor} (h : WrittenStatement types f s t)
    (hc : c.rest = s ++ r) : c.keyword? "else" = none := by
  obtain ⟨w, hf, hne⟩ := h.firstWord
  exact hf.keyword?_eq_none hc (by decide) hne

theorem FirstWord.head (h : FirstWord s n.toList) (hn : IsName n) :
    ∃ ch s', s = ch :: s' ∧ Text.isWordChar ch = true := by
  obtain ⟨_, _, rest, rfl, _⟩ := h
  obtain ⟨ch, l, hl, hs⟩ := hn.cons
  exact ⟨ch, _, by rw [hl]; rfl, Text.isWordChar_of_isWordStart hs⟩

theorem WrittenStatement.head (h : WrittenStatement types f s t) :
    ∃ ch s', s = ch :: s' ∧ isSpacing ch = false ∧ ch ≠ '\x7d' := by
  induction h with
  | expression h =>
    obtain ⟨ch, s', rfl, hs⟩ := h.head
    refine ⟨ch, _, rfl, hs.isSpacing, ?_⟩
    rcases hs with hs | rfl | ⟨_, rfl | rfl⟩
    · rintro rfl; cases hs
    all_goals decide
  | declaration h =>
    obtain ⟨n, hn, hf⟩ := h.firstWord (r := [';'])
    obtain ⟨ch, s', he, hw⟩ := hf.head hn
    exact ⟨ch, s', he, isSpacing_of_isWordChar hw, by rintro rfl; cases hw⟩
  | leave | leaveWith _ => exact ⟨'r', _, rfl, rfl, by decide⟩
  | braces _ _ _ _ _ => exact ⟨'\x7b', _, rfl, rfl, by decide⟩
  | conditional _ _ _ | otherwise _ _ _ _ _ _ => exact ⟨'i', _, rfl, rfl, by decide⟩
  | ofBraces _ ih | ofConditional _ ih => exact ih

theorem WrittenStatement.skip_append (h : WrittenStatement types f s t) (r : Text) :
    skip (s ++ r) = s ++ r := by
  obtain ⟨ch, s', rfl, hb, _⟩ := h.head
  exact skip_cons hb

theorem WrittenStatement.braces_head (h : WrittenStatement types .braces s t) :
    s.head? = some '\x7b' := by
  cases h with
  | braces _ _ _ _ => rfl

end VecLang.Grammar
