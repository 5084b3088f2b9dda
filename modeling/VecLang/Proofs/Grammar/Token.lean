import VecLang.Grammar.Parse

/-!
# Reading tokens

What each token function of a cursor finds, said by the text that stands next. A
token is followed by blanks, so the cursor after it is described by its remaining
text, `skip r` where `r` is what stood behind the token.

* `symbol?_of`, `name?_of`, `keyword?_of`: a token that stands next is read.
* `number?_digits`, `number?_point`: numbers in digits, without and with a point.
* `keyword?_eq_none`: a keyword is read as a whole word only.
-/

namespace VecLang.Grammar

open List

variable {d : Cursor} {whole frac : Text}

/-! ### Characters of a text

Quantifiers over the characters of a text are decided along the text, and never by going
through all characters that there are. -/

section Quantifiers

variable (p : Char → Prop) [DecidablePred p]

instance (priority := 2000) decidableForallMemText (s : Text) : Decidable (∀ ch ∈ s, p ch) :=
  decidableBAll p s

instance (priority := 2000) decidableExistsMemText (s : Text) : Decidable (∃ ch ∈ s, p ch) :=
  decidableBEx p s

instance (priority := 2000) decidableForallMemHead (ch? : Option Char) :
    Decidable (∀ ch ∈ ch?, p ch) := ch?.decidableForallMem

end Quantifiers

@[simp] theorem ok_bind {α β : Type} (a : α) (f : α → Parse β) : (Except.ok a >>= f) = f a := rfl

/-- The text without its leading blanks. -/
def skip (s : Text) : Text := s.dropWhile isSpacing

/-- No word goes on into the text. -/
def NoWord (s : Text) : Prop := ∀ ch ∈ s.head?, Text.isWordChar ch = false

/-- A word that names something: it starts as one and is no keyword. -/
structure IsName (n : String) : Prop where
  head : n.toList.head?.any Text.isWordStart = true
  word : ∀ ch ∈ n.toList, Text.isWordChar ch = true
  free : keywords.contains n = false

instance (n : String) : Decidable (IsName n) :=
  decidable_of_iff (n.toList.head?.any Text.isWordStart = true ∧
    (∀ ch ∈ n.toList, Text.isWordChar ch = true) ∧ keywords.contains n = false)
    ⟨fun ⟨h, w, f⟩ => ⟨h, w, f⟩, fun h => ⟨h.head, h.word, h.free⟩⟩

section Blanks

variable {s r w : Text} {ch : Char} {p : Char → Bool}

@[simp] theorem skip_nil : skip [] = [] := rfl

theorem skip_cons (h : isSpacing ch = false) : skip (ch :: s) = ch :: s := by
  simp [skip, h]

theorem skip_cons_blank (h : isSpacing ch = true) : skip (ch :: s) = skip s := by
  simp [skip, h]

theorem skip_append_blanks (h : ∀ ch ∈ w, isSpacing ch = true) : skip (w ++ s) = skip s :=
  dropWhile_append_of_pos h

theorem head?_skip : ∀ ch ∈ (skip s).head?, isSpacing ch = false := by
  induction s with
  | nil => simp
  | cons x s ih =>
    cases hx : isSpacing x with
    | false => simp [skip_cons hx, hx]
    | true => rw [skip_cons_blank hx]; exact ih

@[simp] theorem skip_skip : skip (skip s) = skip s := by
  cases hs : skip s with
  | nil => rfl
  | cons ch r => exact skip_cons (head?_skip ch (by rw [hs]; rfl))

theorem length_skip_le (s : Text) : (skip s).length ≤ s.length :=
  (dropWhile_sublist _).length_le

theorem isSpacing_of_isWordChar (h : Text.isWordChar ch = true) : isSpacing ch = false := by
  cases hs : isSpacing ch with
  | false => rfl
  | true =>
    simp only [isSpacing, Bool.or_eq_true, beq_iff_eq] at hs
    rcases hs with ((rfl | rfl) | rfl) | rfl <;> cases h

theorem isWordChar_of_isDigit (h : ch.isDigit = true) : Text.isWordChar ch = true := by
  simp [Text.isWordChar, Char.isAlphanum, h]

theorem isWordStart_eq_false_of_isDigit (h : ch.isDigit = true) : Text.isWordStart ch = false := by
  have halpha : ch.isAlpha = false := by
    delta Char.isDigit at h
    delta Char.isAlpha Char.isUpper Char.isLower
    grind
  have h₁ : ch ≠ '_' := by rintro rfl; cases h
  have h₂ : ch ≠ '$' := by rintro rfl; cases h
  simp [Text.isWordStart, halpha, h₁, h₂]

theorem noWord_nil : NoWord [] := by intro ch h; cases h

theorem noWord_cons (h : Text.isWordChar ch = false) : NoWord (ch :: s) := by
  intro x hx; cases hx; exact h

theorem noWord_append (hs : NoWord s) (hr : NoWord r) : NoWord (s ++ r) := by
  cases s with
  | nil => exact hr
  | cons ch s => exact noWord_cons (hs ch rfl)

theorem takeWhile_eq_nil_of_head (h : ∀ ch ∈ s.head?, p ch = false) : s.takeWhile p = [] := by
  cases s with
  | nil => rfl
  | cons ch s => simp [h ch rfl]

theorem dropWhile_eq_self_of_head (h : ∀ ch ∈ s.head?, p ch = false) : s.dropWhile p = s := by
  cases s with
  | nil => rfl
  | cons ch s => simp [h ch rfl]

theorem takeWhile_run (hw : ∀ ch ∈ w, p ch = true) (hr : ∀ ch ∈ r.head?, p ch = false) :
    (w ++ r).takeWhile p = w := by
  rw [takeWhile_append_of_pos hw, takeWhile_eq_nil_of_head hr, append_nil]

theorem dropWhile_run (hw : ∀ ch ∈ w, p ch = true) (hr : ∀ ch ∈ r.head?, p ch = false) :
    (w ++ r).dropWhile p = r := by
  rw [dropWhile_append_of_pos hw, dropWhile_eq_self_of_head hr]

end Blanks

namespace Cursor

variable {c : Cursor} {r w : Text} {sym kw n : String}

@[simp] theorem rest_skipBlanks (c : Cursor) : c.skipBlanks.rest = skip c.rest := by
  have h : c.rest = c.rest.takeWhile isSpacing ++ c.rest.dropWhile isSpacing :=
    takeWhile_append_dropWhile.symm
  have hd := congrArg (drop (c.rest.takeWhile isSpacing).length) h
  rwa [drop_left] at hd

theorem rest_advance (h : c.rest = w ++ r) : (c.advance w.length).rest = r := by
  simp [advance, h]

@[simp] theorem rest_start (source : Text) : (start source).rest = skip source :=
  rest_skipBlanks _

theorem startsWith_of (h : c.rest = sym.toList ++ r) : c.startsWith sym = true := by
  simp [startsWith, h]

theorem rest_after (sym : String) (h : c.rest = sym.toList ++ r) : (c.after sym).rest = skip r := by
  unfold after
  rw [rest_skipBlanks, ← String.length_toList, rest_advance h]

theorem symbol?_of (sym : String) (h : c.rest = sym.toList ++ r) :
    ∃ d, c.symbol? sym = some d ∧ d.rest = skip r :=
  ⟨c.after sym, by rw [symbol?, if_pos (startsWith_of h)], rest_after sym h⟩

theorem expect_of (sym : String) (h : c.rest = sym.toList ++ r) :
    ∃ d, c.expect sym = .ok d ∧ d.rest = skip r := by
  obtain ⟨d, hd, hr⟩ := symbol?_of sym h
  exact ⟨d, by rw [expect, hd], hr⟩

theorem startsWith_char (ch : Char) (hs : sym.toList = [ch]) :
    c.startsWith sym = true ↔ c.rest.head? = some ch := by
  cases hr : c.rest with
  | nil => simp [startsWith, hs, hr]
  | cons x r =>
    rw [startsWith, hs, hr]
    simp only [isPrefixOf, Bool.and_true, beq_iff_eq, head?_cons, Option.some.injEq]
    exact eq_comm

theorem symbol?_eq_none (ch : Char) (hs : sym.toList = [ch]) (h : c.rest.head? ≠ some ch) :
    c.symbol? sym = none := by
  rw [symbol?, if_neg]
  rwa [startsWith_char ch hs]

theorem word_eq (hw : ∀ ch ∈ w, Text.isWordChar ch = true) (hr : NoWord r) (h : c.rest = w ++ r) :
    c.word = if w.head?.any Text.isWordStart then w else [] := by
  have hhead : c.rest.head?.any Text.isWordStart = w.head?.any Text.isWordStart := by
    rw [h]
    cases w with
    | cons ch w => rfl
    | nil =>
      cases r with
      | nil => rfl
      | cons ch r =>
        have hch := hr ch rfl
        cases hs : Text.isWordStart ch with
        | false => simp [hs]
        | true => rw [Text.isWordChar_of_isWordStart hs] at hch; cases hch
  unfold word
  rw [hhead, h, takeWhile_run hw hr]

theorem name?_of (hn : IsName n) (hr : NoWord r) (h : c.rest = n.toList ++ r) :
    ∃ d, c.name? = some (n, d) ∧ d.rest = skip r := by
  have hword : c.word = n.toList := by rw [word_eq hn.word hr h, if_pos hn.head]
  have hne : n.toList.isEmpty = false := by
    have := hn.head
    cases hl : n.toList with
    | nil => rw [hl] at this; cases this
    | cons _ _ => rfl
  refine ⟨(c.advance n.toList.length).skipBlanks, ?_, ?_⟩
  · unfold name?
    simp only [hword, String.ofList_toList, hne, hn.free, Bool.or_self, if_neg Bool.false_ne_true]
  · rw [rest_skipBlanks, rest_advance h]

theorem name?_eq_none_of_head (h : NoWord c.rest) : c.name? = none := by
  have hword : c.word = [] := by
    rw [word_eq (w := []) (r := c.rest) (by simp) h rfl]; rfl
  simp [name?, hword]

theorem name?_eq_some (hw : ∀ ch ∈ w, Text.isWordChar ch = true) (hr : NoWord r)
    (h : c.rest = w ++ r) (hn : c.name? = some (n, d)) :
    n.toList = w ∧ IsName n ∧ d.rest = skip r := by
  unfold name? at hn
  rw [word_eq hw hr h] at hn
  cases hs : w.head?.any Text.isWordStart with
  | false => simp [hs] at hn
  | true =>
    simp only [hs, if_true] at hn
    split at hn
    · cases hn
    · next hfree =>
      simp only [Bool.or_eq_true, not_or, Bool.not_eq_true] at hfree
      cases hn
      refine ⟨String.toList_ofList, ⟨?_, ?_, hfree.2⟩, ?_⟩
      · rw [String.toList_ofList]; exact hs
      · rw [String.toList_ofList]; exact hw
      · rw [rest_skipBlanks, rest_advance h]

theorem isName_of_name? (h : c.name? = some (n, d)) : IsName n := by
  have hrest : c.rest = c.rest.takeWhile Text.isWordChar ++ c.rest.dropWhile Text.isWordChar :=
    takeWhile_append_dropWhile.symm
  have hw : ∀ ch ∈ c.rest.takeWhile Text.isWordChar, Text.isWordChar ch = true :=
    all_eq_true.1 all_takeWhile
  have hr : NoWord (c.rest.dropWhile Text.isWordChar) := by
    intro ch hch
    have := head?_dropWhile_not Text.isWordChar c.rest
    rw [Option.mem_def.1 hch] at this
    simpa using this
  exact (name?_eq_some hw hr hrest h).2.1

theorem keyword?_of (kw : String) (hr : NoWord r) (h : c.rest = kw.toList ++ r) :
    ∃ d, c.keyword? kw = some d ∧ d.rest = skip r := by
  refine ⟨c.after kw, ?_, rest_after kw h⟩
  have hdrop : c.rest.drop kw.length = r := by rw [h, ← String.length_toList]; simp
  have hany : r.head?.any Text.isWordChar = false := by
    cases r with
    | nil => rfl
    | cons ch r => simp [hr ch rfl]
  rw [keyword?, startsWith_of h, hdrop, hany]
  rfl

theorem keyword?_eq_none (hw : ∀ ch ∈ w, Text.isWordChar ch = true) (hr : NoWord r)
    (h : c.rest = w ++ r) (hkw : ∀ ch ∈ kw.toList, Text.isWordChar ch = true)
    (hne : kw.toList ≠ w) : c.keyword? kw = none := by
  unfold keyword?
  rw [if_neg]
  intro hc
  simp only [startsWith, Bool.and_eq_true, isPrefixOf_iff_prefix, Bool.not_eq_true'] at hc
  obtain ⟨⟨tail, htail⟩, hend⟩ := hc
  have htailNo : NoWord tail := by
    rw [← htail, ← String.length_toList, drop_left] at hend
    intro ch hch
    rw [Option.mem_def.1 hch] at hend
    simpa using hend
  -- both words are the longest run of word characters
  have h₁ : c.rest.takeWhile Text.isWordChar = kw.toList := by
    rw [← htail, takeWhile_run hkw htailNo]
  have h₂ : c.rest.takeWhile Text.isWordChar = w := by rw [h, takeWhile_run hw hr]
  exact hne (h₁.symm.trans h₂)

end Cursor

section Numbers

variable {c : Cursor} {r : Text} {n : Nat}

theorem toDigits_isDigit : ∀ ch ∈ Nat.toDigits 10 n, ch.isDigit = true :=
  fun _ h => Nat.isDigit_of_mem_toDigits (by decide) (by decide) h

theorem digitsValue_toDigits (n : Nat) : Decimal.digitsValue (Nat.toDigits 10 n) = n :=
  Nat.ofDigitChars_toDigits (by decide) (by decide)

theorem isDigit_false_of_noWord (h : NoWord r) : ∀ ch ∈ r.head?, ch.isDigit = false := by
  intro ch hch
  cases hd : ch.isDigit with
  | false => rfl
  | true => rw [← h ch hch, isWordChar_of_isDigit hd]

theorem exponent?_eq_none (h : NoWord r) : exponent? r = none := by
  cases r with
  | nil => rfl
  | cons ch r =>
    have hch := h ch rfl
    have he : ¬ (ch == 'e' || ch == 'E') = true := by
      intro he
      simp only [Bool.or_eq_true, beq_iff_eq] at he
      rcases he with rfl | rfl <;> cases hch
    simp only [exponent?, if_neg he]

theorem dropSuffix_eq_self (h : NoWord r) : dropSuffix r = r := by
  unfold dropSuffix
  split
  · exact absurd (h 'f' rfl) (by decide)
  · rfl

theorem number?_digits (hn : n ≤ maxInt) (hr : NoWord r) (hpoint : r.head? ≠ some '.')
    (h : c.rest = Nat.toDigits 10 n ++ r) :
    ∃ d, number? c = .ok (some (.int n, d)) ∧ d.rest = skip r := by
  have hdigit := isDigit_false_of_noWord hr
  have htake : c.rest.takeWhile Char.isDigit = Nat.toDigits 10 n := by
    rw [h, takeWhile_run toDigits_isDigit hdigit]
  have hdrop : c.rest.dropWhile Char.isDigit = r := by
    rw [h, dropWhile_run toDigits_isDigit hdigit]
  have hne : (Nat.toDigits 10 n).isEmpty = false := by
    rw [isEmpty_eq_false_iff]; exact Nat.toDigits_ne_nil
  have hdec : decimals? c.rest = none := by
    unfold decimals?
    simp only [htake, hdrop]
    split
    · next rest => exact absurd rfl hpoint
    · simp [hne, exponent?_eq_none hr]
  have hany : r.head?.any Text.isWordChar = false := by
    cases r with
    | nil => rfl
    | cons ch r => simp [hr ch rfl]
  have hint : integer? c.rest = some (Nat.toDigits 10 n) := by
    unfold integer?
    simp only [htake, hdrop, hne, hany, digitsValue_toDigits, Bool.or_self, Bool.false_or]
    rw [if_neg]
    simpa using hn
  refine ⟨(c.advance (Nat.toDigits 10 n).length).skipBlanks, ?_, ?_⟩
  · unfold number?
    simp only [hdec, hint, digitsValue_toDigits]
  · rw [Cursor.rest_skipBlanks, Cursor.rest_advance h]

section

variable (hw : ∀ ch ∈ whole, ch.isDigit = true) (hf : ∀ ch ∈ frac, ch.isDigit = true)
  (hne : whole ≠ [])
include hw hf hne

theorem decimals?_point (hr : NoWord r) :
    decimals? (whole ++ '.' :: (frac ++ r)) = some ({ whole, frac, exp := 0 }, r) := by
  have hpoint : ∀ ch ∈ ('.' :: (frac ++ r)).head?, ch.isDigit = false := by
    intro ch hch; cases hch; rfl
  have hdigit := isDigit_false_of_noWord hr
  unfold decimals?
  simp only [takeWhile_run hw hpoint, dropWhile_run hw hpoint, takeWhile_run hf hdigit,
    dropWhile_run hf hdigit, exponent?_eq_none hr, isEmpty_eq_false_iff.2 hne, Bool.false_and]
  rfl

theorem number?_point (hfin : Decimal.isFinite (Decimal.ofDigits whole frac 0) = true)
    (hr : NoWord r) (h : c.rest = whole ++ '.' :: (frac ++ r)) :
    ∃ d, number? c = .ok (some (.float (Decimal.ofDigits whole frac 0), d)) ∧ d.rest = skip r := by
  have hsplit : c.rest = (whole ++ '.' :: frac) ++ r := by rw [h]; simp
  have hlen : c.rest.length - r.length = (whole ++ '.' :: frac).length := by
    rw [hsplit, length_append]; omega
  refine ⟨(c.advance (whole ++ '.' :: frac).length).skipBlanks, ?_, ?_⟩
  · unfold number?
    rw [h, decimals?_point hw hf hne hr, ← h]
    simp only [hfin, if_true, dropSuffix_eq_self hr, hlen]
  · rw [Cursor.rest_skipBlanks, Cursor.rest_advance hsplit]

end

theorem number?_eq_none (hd : ∀ ch ∈ c.rest.head?, ch.isDigit = false)
    (hpoint : c.rest.head? ≠ some '.') : number? c = .ok none := by
  have htake := takeWhile_eq_nil_of_head hd
  have hdrop := dropWhile_eq_self_of_head hd
  have hdec : decimals? c.rest = none := by
    unfold decimals?
    simp only [htake, hdrop]
    split
    · next rest he => rw [he] at hpoint; exact absurd rfl hpoint
    · simp
  have hint : integer? c.rest = none := by
    unfold integer?
    simp [htake]
  unfold number?
  simp only [hdec, hint]

end Numbers

end VecLang.Grammar
