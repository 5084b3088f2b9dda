import VecLang.Proofs.Grammar.Shape
import VecLang.Proofs.Grammar.Spacing

/-!
# Two runs of the parser, token by token

The second text has other blanks than the first, and may go on with a tail where the first ends.
No token goes on into the tail. So two cursors that stand at the same token of two such texts read
the same token, and stand at the same token afterwards.

* `Extends`: texts that differ in their blanks, and in the tail of the second.
* `IsTail`: texts into which nothing that is read goes on.
* `March`: two runs, and the places where the first may stand.
* `March.Abreast`: cursors at the same token.
* `Abreast.symbol?`, `Abreast.name?`, `Abreast.keyword?`, `Abreast.number?`: the tokens.
* `March.Agree`: outcomes of two runs that belong together.
-/

namespace VecLang.Grammar

open List

/-! ### Texts that go on -/

/-- The text is the tail, or what is left of it behind its blanks. -/
def Ends (tail s : Text) : Prop := s = tail ∨ s = skip tail

/-- **The second text has other blanks, and goes on with the tail where the first ends.** -/
inductive Extends (tail : Text) : Text → Text → Prop
  | ends {s' : Text} : Ends tail s' → Extends tail [] s'
  | char {ch : Char} {s s' : Text} : isSpacing ch = false → Extends tail s s' →
      Extends tail (ch :: s) (ch :: s')
  | gap {w w' s s' : Text} : IsGap w → IsGap w' → Extends tail s s' →
      Extends tail (w ++ s) (w' ++ s')

/-- The character is no blank, and the tail does not start with it. -/
def Apart (tail : Text) (ch : Char) : Prop :=
  isSpacing ch = false ∧ ∀ s, Ends tail s → s.head? ≠ some ch

/-- The characters beside those of words by which an operand or a longer operator goes on. -/
def marks : List Char := ['(', '[', '.', ',', '?', '=', '|', '&']

/-- **No token and no operand goes on into the text.** -/
structure IsTail (tail : Text) : Prop where
  word {ch : Char} : Text.isWordChar ch = true → Apart tail ch
  mark {ch : Char} : ch ∈ marks → Apart tail ch
  operator {s : Text} {op : Operator} : Ends tail s → op ∈ .neg :: .not :: levels.flatten →
    opAt s op.symbol = false
  exponent {s : Text} {e : Char} : Ends tail s → exponent? (e :: s) = none

theorem isSpacing_of_isDigit {ch : Char} (h : ch.isDigit = true) : isSpacing ch = false :=
  isSpacing_of_isWordChar (isWordChar_of_isDigit h)

theorem isSpacing_of_mem_marks : ∀ ch ∈ marks, isSpacing ch = false := by decide

theorem apart_nil {ch : Char} (h : isSpacing ch = false) : Apart [] ch := by
  refine ⟨h, fun s hs => ?_⟩
  rcases hs with rfl | rfl <;> intro hch <;> cases hch

theorem isTail_nil : IsTail [] where
  word h := apart_nil (isSpacing_of_isWordChar h)
  mark h := apart_nil (isSpacing_of_mem_marks _ h)
  operator := by
    rintro s op (rfl | rfl) hop
    all_goals
      revert op
      decide
  exponent := by
    rintro s e (rfl | rfl) <;> exact ite_self _

theorem IsTail.noWord {tail s : Text} (h : IsTail tail) (hs : Ends tail s) : NoWord s := by
  intro ch hch
  cases hword : Text.isWordChar ch with
  | false => rfl
  | true => exact absurd hch ((h.word hword).2 s hs)

namespace Extends

variable {tail s s' w : Text} {p : Char → Bool}

theorem start_cases (h : Extends tail s s') :
    (s = [] ∧ Ends tail s') ∨
    (∃ ch r r', isSpacing ch = false ∧ s = ch :: r ∧ s' = ch :: r' ∧ Extends tail r r') ∨
    (∃ ch ch' r r', isSpacing ch = true ∧ isSpacing ch' = true ∧ s = ch :: r ∧ s' = ch' :: r') := by
  cases h with
  | ends he => exact .inl ⟨rfl, he⟩
  | char hch h => exact .inr (.inl ⟨_, _, _, hch, rfl, rfl, h⟩)
  | gap hw hw' _ =>
    obtain ⟨ch, r, rfl, hch⟩ := hw.exists_cons
    obtain ⟨ch', r', rfl, hch'⟩ := hw'.exists_cons
    exact .inr (.inr ⟨ch, ch', _, _, hch, hch', rfl, rfl⟩)

theorem append_tail (tail s : Text) : Extends tail s (s ++ tail) := by
  induction s with
  | nil => exact .ends (.inl rfl)
  | cons ch s ih =>
    cases hch : isSpacing ch with
    | false => exact .char hch ih
    | true =>
      have hgap : IsGap [ch] := ⟨cons_ne_nil _ _, by simpa using hch⟩
      exact @Extends.gap _ [ch] [ch] _ _ hgap hgap ih

section

variable (h : Extends tail s s')
include h

/-- **What is no blank is at the start of both.** -/
theorem append {r : Text} (hw : ∀ ch ∈ w, isSpacing ch = false) (hs : s = w ++ r) :
    ∃ r', s' = w ++ r' ∧ Extends tail r r' := by
  induction w generalizing s s' with
  | nil =>
    cases hs
    exact ⟨s', rfl, h⟩
  | cons ch w ih =>
    obtain ⟨hch, hw⟩ := forall_mem_cons.1 hw
    rcases h.start_cases with ⟨rfl, -⟩ | ⟨x, t, t', -, rfl, rfl, ht⟩ | ⟨x, x', t, t', hx, -, rfl, -⟩
    · cases hs
    · cases hs
      obtain ⟨r', rfl, hr⟩ := ih ht hw rfl
      exact ⟨r', rfl, hr⟩
    · cases hs
      cases hx.symm.trans hch

theorem skip : Extends tail (skip s) (skip s') := by
  induction h with
  | ends he =>
    refine .ends (.inr ?_)
    rcases he with rfl | rfl
    · rfl
    · exact skip_skip
  | char hch h _ =>
    rw [skip_cons hch, skip_cons hch]
    exact .char hch h
  | gap hw hw' _ ih =>
    rw [skip_append_blanks hw.2, skip_append_blanks hw'.2]
    exact ih

/-- A class that is apart from the tail has the next character of both texts, or of none. -/
theorem any_head (hp : ∀ ch, p ch = true → Apart tail ch) : s'.head?.any p = s.head?.any p := by
  have hblank : ∀ ch, isSpacing ch = true → p ch = false := by
    intro ch hch
    cases hpch : p ch with
    | false => rfl
    | true => cases hch.symm.trans (hp ch hpch).1
  rcases h.start_cases with ⟨rfl, he⟩ | ⟨x, r, r', -, rfl, rfl, -⟩ | ⟨x, x', r, r', hx, hx', rfl, rfl⟩
  · rw [head?_nil, Option.any_none, Option.any_eq_false]
    intro ch hch
    exact Bool.eq_false_iff.2 fun hpch => (hp ch hpch).2 s' he hch
  · rfl
  · exact (hblank x' hx').trans (hblank x hx).symm

theorem while_eq (hp : ∀ ch, p ch = true → Apart tail ch) :
    s'.takeWhile p = s.takeWhile p ∧ Extends tail (s.dropWhile p) (s'.dropWhile p) := by
  have hall : ∀ ch ∈ s.takeWhile p, p ch = true := all_eq_true.1 all_takeWhile
  obtain ⟨r', hs', hr⟩ := h.append (fun ch hch => (hp ch (hall ch hch)).1)
    takeWhile_append_dropWhile.symm
  have hstop : ∀ ch ∈ r'.head?, p ch = false := by
    intro ch hch
    have hany := hr.any_head hp
    have hnot := head?_dropWhile_not p s
    rw [Option.mem_def.1 hch] at hany
    cases hhead : (s.dropWhile p).head? with
    | none => rw [hhead] at hany; exact hany
    | some x =>
      rw [hhead] at hany hnot
      exact hany.trans (by simpa using hnot)
  rw [hs', takeWhile_run hall hstop, dropWhile_run hall hstop]
  exact ⟨rfl, hr⟩

theorem isPrefixOf_eq (hw : ∀ ch ∈ w, Apart tail ch) : w.isPrefixOf s' = w.isPrefixOf s := by
  induction w generalizing s s' with
  | nil => simp
  | cons x w ih =>
    obtain ⟨hx, hw⟩ := forall_mem_cons.1 hw
    have hne : ∀ {t : Text}, t.head? ≠ some x → (x :: w).isPrefixOf t = false := by
      intro t ht
      cases t with
      | nil => rfl
      | cons y t =>
        have hxy : x ≠ y := fun hxy => ht (by rw [hxy]; rfl)
        simp [isPrefixOf, hxy]
    rcases h.start_cases with ⟨rfl, he⟩ | ⟨y, r, r', -, rfl, rfl, hr⟩ | ⟨y, y', r, r', hy, hy', rfl, rfl⟩
    · exact hne (hx.2 s' he)
    · rw [isPrefixOf_cons_cons, isPrefixOf_cons_cons, ih hr hw]
    · have hblank : ∀ {z : Char} {t : Text}, isSpacing z = true → (z :: t).head? ≠ some x := by
        rintro z t hz hzx
        cases hzx
        cases hz.symm.trans hx.1
      rw [hne (hblank hy), hne (hblank hy')]

theorem weight_le : weight s ≤ weight s' := by
  induction h with
  | ends _ => exact Nat.zero_le _
  | @char ch s s' _ _ ih =>
    have hcons : ∀ t : Text, weight (ch :: t) = weight [ch] + weight t := weight_append [ch]
    rw [hcons s', hcons s]
    exact Nat.add_le_add_left ih _
  | gap hw hw' _ ih =>
    rw [weight_append, weight_append, weight_gap hw, weight_gap hw', Nat.zero_add, Nat.zero_add]
    exact ih

end

end Extends

theorem Respaced.extends {s s' : Text} (h : Respaced s s') : Extends [] s s' := by
  induction h with
  | nil => exact .ends (.inl rfl)
  | char hch _ ih => exact .char hch ih
  | gap hw hw' _ _ ih => exact .gap hw hw' ih

/-! ### Two runs -/

/-- A text of a token: it has no blanks, and it is ASCII. -/
def IsToken (w : Text) : Prop := w ≠ [] ∧ ∀ ch ∈ w, isSpacing ch = false ∧ ch.val ≤ 127

instance (w : Text) : Decidable (IsToken w) := inferInstanceAs (Decidable (_ ∧ _))

theorem IsToken.isAscii {w : Text} (h : IsToken w) : w.IsAscii := fun ch hch => (h.2 ch hch).2

/-- How much is left to read: the characters that are no blanks. -/
def Cursor.weight (c : Cursor) : Nat := Grammar.weight c.rest

/-- **Two runs of the parser that know the same types**: the tail with which the second text goes
on, and a kind of place at which the first run stands. -/
structure March (env env' : Env) where
  tail : Text
  Place : Cursor → Prop
  Mark : Pos → Prop
  isTail : IsTail tail
  standing : Standing env Place Mark
  types : env'.types = env.types

namespace March

open Cursor

variable {env env' : Env} {m : March env env'} {c c' : Cursor} {n n' : Nat} {sym : String}

/-- **The cursors stand at the same token.** -/
structure Abreast (m : March env env') (c c' : Cursor) : Prop where
  place : m.Place c
  rest : Extends m.tail c.rest c'.rest
  settled : ∀ ch ∈ c.rest.head?, isSpacing ch = false
  settled' : ∀ ch ∈ c'.rest.head?, isSpacing ch = false

/-- The cursors stand at the same token, with less than `n` left to read. -/
structure Within (m : March env env') (n : Nat) (c c' : Cursor) : Prop where
  abreast : m.Abreast c c'
  lt : c.weight < n

theorem Within.mono (h : m.Within n c c') (hn : n ≤ n') : m.Within n' c c' :=
  ⟨h.abreast, Nat.lt_of_lt_of_le h.lt hn⟩

/-- The symbol can be told from the tail. -/
structure Legible (m : March env env') (sym : String) : Prop where
  token : IsToken sym.toList
  apart : ∀ ch ∈ sym.toList, Apart m.tail ch

theorem Legible.plain
    (h : IsToken sym.toList ∧ ∀ ch ∈ sym.toList, Text.isWordChar ch = true ∨ ch ∈ marks) :
    m.Legible sym :=
  ⟨h.1, fun ch hch => (h.2 ch hch).elim m.isTail.word m.isTail.mark⟩

theorem Legible.of_nil (hm : m.tail = []) (h : IsToken sym.toList) : m.Legible sym := by
  refine ⟨h, fun ch hch => ?_⟩
  rw [hm]
  exact apart_nil (h.2 ch hch).1

namespace Abreast

section

variable (h : m.Abreast c c')
include h

theorem within : m.Within (c.weight + 1) c c' := ⟨h, Nat.lt_succ_self _⟩

theorem lt_bounds : c.weight < c.rest.length + 1 ∧ c.weight < c'.rest.length + 1 := by
  have hlen := weight_le_length c.rest
  have hlen' := weight_le_length c'.rest
  have hle : c.weight ≤ Grammar.weight c'.rest := h.rest.weight_le
  unfold Cursor.weight at hle ⊢
  omega

/-- Behind ASCII, and the blanks that follow it, the cursors stand at the same token again. -/
theorem past {w r r' : Text} {d' : Cursor} (hr : c.rest = w ++ r) (hw : w.IsAscii)
    (hext : Extends m.tail r r') (hd' : d'.rest = skip r') :
    m.Abreast (c.advance w.length).skipBlanks d' where
  place := m.standing.skipBlanks (m.standing.advance h.place hr hw)
  rest := by
    rw [rest_skipBlanks, rest_advance hr, hd']
    exact hext.skip
  settled := by
    rw [rest_skipBlanks]
    exact head?_skip
  settled' := by
    rw [hd']
    exact head?_skip

theorem behind {w r : Text} (hw : IsToken w) (hr : c.rest = w ++ r) :
    ∃ r', c'.rest = w ++ r' ∧ Extends m.tail r r' ∧ m.Within c.weight
      (c.advance w.length).skipBlanks (c'.advance w.length).skipBlanks := by
  obtain ⟨r', hr', hext⟩ := h.rest.append (fun ch hch => (hw.2 ch hch).1) hr
  refine ⟨r', hr', hext, h.past hr hw.isAscii hext ?_, ?_⟩
  · rw [rest_skipBlanks, rest_advance hr']
  · unfold Cursor.weight
    rw [rest_skipBlanks, rest_advance hr, weight_skip, hr]
    exact weight_lt (fun ch hch => (hw.2 ch hch).1) hw.1

theorem after (hs : IsToken sym.toList) (hstart : c.startsWith sym = true) :
    c'.startsWith sym = true ∧ m.Within c.weight (c.after sym) (c'.after sym) := by
  obtain ⟨r, hr⟩ := isPrefixOf_iff_prefix.1 hstart
  obtain ⟨r', hr', -, hwithin⟩ := h.behind hs hr.symm
  rw [String.length_toList] at hwithin
  exact ⟨startsWith_of hr', hwithin⟩

theorem startsWith (hs : m.Legible sym) :
    c'.startsWith sym = c.startsWith sym := h.rest.isPrefixOf_eq hs.apart

theorem symbol? (sym : String) (hs : m.Legible sym) :
    Option.Rel (m.Within c.weight) (c.symbol? sym) (c'.symbol? sym) := by
  unfold Cursor.symbol?
  rw [h.startsWith hs]
  by_cases hstart : c.startsWith sym = true
  · rw [if_pos hstart, if_pos hstart]
    exact .some (h.after hs.token hstart).2
  · rw [if_neg hstart, if_neg hstart]
    exact .none

theorem keyword? (sym : String) (hs : m.Legible sym) :
    Option.Rel (m.Within c.weight) (c.keyword? sym) (c'.keyword? sym) := by
  unfold Cursor.keyword?
  rw [h.startsWith hs]
  by_cases hstart : c.startsWith sym = true
  · have hdrop : (c'.rest.drop sym.length).head?.any Text.isWordChar =
        (c.rest.drop sym.length).head?.any Text.isWordChar := by
      obtain ⟨r, hr⟩ := isPrefixOf_iff_prefix.1 hstart
      obtain ⟨r', hr', hext, -⟩ := h.behind hs.token hr.symm
      rw [← hr, hr', ← String.length_toList, drop_left, drop_left]
      exact hext.any_head fun _ => m.isTail.word
    rw [hdrop]
    split
    · exact .some (h.after hs.token hstart).2
    · exact .none
  · rw [Bool.not_eq_true] at hstart
    simp only [hstart, Bool.false_and, Bool.false_eq_true, if_false]
    exact .none

/-- An operator stands next in both texts or in none, if none stands at the end. -/
theorem startsWithOp (hs : sym.toList ≠ [] ∧ ∀ ch ∈ sym.toList.tail, ch ∈ marks)
    (hend : c.rest = [] → c'.startsWithOp sym = false) :
    c'.startsWithOp sym = c.startsWithOp sym := by
  obtain ⟨hne, hmarks⟩ := hs
  rcases h.rest.start_cases with ⟨hr, -⟩ | ⟨ch, r, r', -, hr, hr', hext⟩ |
    ⟨ch, ch', r, r', hch, -, hr, -⟩
  · rw [hend hr]
    refine (opAt_eq_false (r := c.rest) ?_ hne).symm
    rw [hr]
    exact fun ch hch => by cases hch
  · have hmark : ∀ o : Option Char, (o == some '=') = o.any (· == '=') := by
      intro o
      cases o <;> rfl
    have hequals : (r'.head? == some '=') = (r.head? == some '=') := by
      rw [hmark, hmark]
      refine hext.any_head fun x hx => m.isTail.mark ?_
      rw [beq_iff_eq.1 hx]
      decide
    unfold Cursor.startsWithOp Cursor.startsWith
    rw [hr, hr']
    cases hl : sym.toList with
    | nil => exact absurd hl hne
    | cons x l =>
      rw [hl, tail_cons] at hmarks
      rw [isPrefixOf_cons_cons, isPrefixOf_cons_cons,
        hext.isPrefixOf_eq fun y hy => m.isTail.mark (hmarks y hy), drop_one, drop_one,
        tail_cons, tail_cons, hequals]
  · cases hch.symm.trans (h.settled ch (by rw [hr]; rfl))

theorem atEnd (hm : m.tail = []) : c'.atEnd = c.atEnd := by
  unfold Cursor.atEnd
  rcases h.rest.start_cases with ⟨hs, he⟩ | ⟨x, r, r', -, hs, hs', -⟩ | ⟨x, x', r, r', -, -, hs, hs'⟩
  · rw [hm] at he
    rw [hs]
    rcases he with he | he
    · rw [he]
    · rw [he]
      rfl
  all_goals rw [hs, hs']; rfl

theorem word : c'.word = c.word := by
  unfold Cursor.word
  rw [(h.rest.while_eq fun _ => m.isTail.word).1,
    h.rest.any_head fun _ hch => m.isTail.word (Text.isWordChar_of_isWordStart hch)]

theorem behindWhile {p : Char → Bool} (hp : ∀ ch, p ch = true → isSpacing ch = false ∧ ch.val ≤ 127)
    (hne : c.rest.takeWhile p ≠ []) :
    m.Within c.weight (c.advance (c.rest.takeWhile p).length).skipBlanks
      (c'.advance (c.rest.takeWhile p).length).skipBlanks := by
  have hall : ∀ ch ∈ c.rest.takeWhile p, p ch = true := all_eq_true.1 all_takeWhile
  obtain ⟨-, -, -, hwithin⟩ := h.behind ⟨hne, fun ch hch => hp ch (hall ch hch)⟩
    takeWhile_append_dropWhile.symm
  exact hwithin

end

end Abreast

/-! ### Names and numbers -/

/-- The same is read, and the cursors stand at the same token behind it. -/
structure Alike {α β : Type} (m : March env env') (V : α → β → Prop) (n : Nat) (x : At α) (y : At β) :
    Prop where
  value : V x.1 y.1
  cursors : m.Within n x.2 y.2

/-- **Both runs come to like results, or both fail with the same problem at the same token**, and
neither fails because it has come to a limit. If the second text goes on, a failure of the first run
says nothing of the second. -/
inductive Agree {α β : Type} (m : March env env') (V : α → β → Prop) : Parse α → Parse β → Prop
  | ok {a : α} {b : β} : V a b → Agree m V (.ok a) (.ok b)
  | error {c c' : Cursor} {problem : Problem} : m.Abreast c c' → problem ≠ .tooDeep →
      Agree m V (.error ⟨c, problem⟩) (.error ⟨c', problem⟩)
  | failed {failure : Failure} {y : Parse β} : m.tail ≠ [] → Agree m V (.error failure) y

namespace Abreast

theorem name? (h : m.Abreast c c') : (c.name? = none ∧ c'.name? = none) ∨
    ∃ n d d', c.name? = some (n, d) ∧ c'.name? = some (n, d') ∧ IsName n ∧
      m.Within c.weight d d' := by
  have hshape := fun n d => isName_of_name? (c := c) (n := n) (d := d)
  unfold Cursor.name? at hshape ⊢
  simp only [h.word]
  split
  · exact .inl ⟨rfl, rfl⟩
  · next hname =>
    refine .inr ⟨_, _, _, rfl, rfl, hshape _ _ (if_neg hname), ?_⟩
    have hne : c.word ≠ [] := by
      intro hnil
      rw [hnil] at hname
      exact hname rfl
    have hword : c.word = c.rest.takeWhile Text.isWordChar := by
      unfold Cursor.word at hne ⊢
      split
      · rfl
      · next hstart => exact absurd (if_neg hstart) hne
    rw [hword] at hne ⊢
    exact h.behindWhile (fun _ hch => ⟨isSpacing_of_isWordChar hch, isAscii_of_isWordChar hch⟩) hne

theorem expect (h : m.Abreast c c') (sym : String) (hs : IsToken sym.toList) :
    m.Agree (m.Within c.weight) (c.expect sym) (c'.expect sym) := by
  unfold Cursor.expect Cursor.symbol?
  by_cases hstart : c.startsWith sym = true
  · obtain ⟨hstart', hd⟩ := h.after hs hstart
    rw [if_pos hstart, if_pos hstart']
    exact .ok hd
  · rw [if_neg hstart]
    by_cases hm : m.tail = []
    · rw [h.startsWith (.of_nil hm hs), if_neg hstart]
      exact .error h nofun
    · exact .failed hm

end Abreast

section Numbers

variable {tail s s' : Text}

/-- The same parts are read, and the text left extends the other. -/
def Leaves {α : Type} (tail : Text) (x y : α × Text) : Prop := x.1 = y.1 ∧ Extends tail x.2 y.2

section

variable (ht : IsTail tail) (h : Extends tail s s')
include ht h

theorem digits_extends :
    s'.takeWhile Char.isDigit = s.takeWhile Char.isDigit ∧
      Extends tail (s.dropWhile Char.isDigit) (s'.dropWhile Char.isDigit) :=
  h.while_eq fun _ hch => ht.word (isWordChar_of_isDigit hch)

theorem exponent?_extends : Option.Rel (Leaves tail) (exponent? s) (exponent? s') := by
  -- the digits of an exponent, behind its sign
  have hdigits : ∀ {t t' : Text} (neg : Bool), Extends tail t t' → Option.Rel (Leaves tail)
      (if (t.takeWhile Char.isDigit).isEmpty then none
        else some (Decimal.signed neg (Decimal.digitsValue (t.takeWhile Char.isDigit)),
          t.dropWhile Char.isDigit))
      (if (t'.takeWhile Char.isDigit).isEmpty then none
        else some (Decimal.signed neg (Decimal.digitsValue (t'.takeWhile Char.isDigit)),
          t'.dropWhile Char.isDigit)) := by
    intro t t' neg hext
    obtain ⟨htake, hdrop⟩ := digits_extends ht hext
    rw [htake]
    split
    · exact .none
    · exact .some ⟨rfl, hdrop⟩
  rcases h.start_cases with ⟨rfl, hends⟩ | ⟨e, r, r', -, rfl, rfl, hr⟩ |
    ⟨e, e', r, r', he, he', rfl, rfl⟩
  · rw [exponent?_eq_none (ht.noWord hends)]
    exact .none
  · by_cases he : (e == 'e' || e == 'E') = true
    · rcases hr.start_cases with ⟨rfl, hends⟩ | ⟨x, t, t', -, rfl, rfl, hext⟩ |
        ⟨x, x', t, t', hx, hx', rfl, rfl⟩
      · rw [ht.exponent hends, isTail_nil.exponent (.inl rfl)]
        exact .none
      · unfold exponent?
        simp only [if_pos he]
        by_cases hminus : x = '-'
        · subst hminus
          exact hdigits true hext
        · by_cases hplus : x = '+'
          · subst hplus
            exact hdigits false hext
          · simpa [hminus, hplus] using hdigits false hr
      · have hsign : ∀ {x : Char}, isSpacing x = true → x ≠ '-' ∧ x ≠ '+' := by
          intro x hx
          refine ⟨?_, ?_⟩ <;> rintro rfl <;> cases hx
        unfold exponent?
        simp only [if_pos he]
        simpa [hsign hx, hsign hx'] using hdigits false hr
    · unfold exponent?
      simp only [if_neg he]
      exact .none
  · have hblank : ∀ {x : Char} {t : Text}, isSpacing x = true → NoWord (x :: t) := by
      intro x t hx
      refine noWord_cons (Bool.eq_false_iff.2 fun hword => ?_)
      cases hx.symm.trans (isSpacing_of_isWordChar hword)
    rw [exponent?_eq_none (hblank he), exponent?_eq_none (hblank he')]
    exact .none

theorem dropSuffix_extends : Extends tail (dropSuffix s) (dropSuffix s') := by
  rcases h.start_cases with ⟨rfl, he⟩ | ⟨x, r, r', -, rfl, rfl, hr⟩ | ⟨x, x', r, r', hx, hx', rfl, rfl⟩
  · rw [dropSuffix_eq_self (ht.noWord he)]
    exact .ends he
  · by_cases hf : x = 'f'
    · subst hf
      exact hr
    · simpa [dropSuffix, hf] using h
  · have hsuffix : ∀ {x : Char}, isSpacing x = true → x ≠ 'f' := by
      rintro x hx rfl
      cases hx
    simpa [dropSuffix, hsuffix hx, hsuffix hx'] using h

theorem decimals?_extends : Option.Rel (Leaves tail) (decimals? s) (decimals? s') := by
  obtain ⟨htake, hdrop⟩ := digits_extends ht h
  unfold decimals?
  simp only [htake]
  generalize s.dropWhile Char.isDigit = r, s'.dropWhile Char.isDigit = r' at hdrop ⊢
  -- without a point, a number of this kind has an exponent
  have hwhole : ∀ {t t' : Text}, Extends tail t t' → Option.Rel (Leaves tail)
      (if (s.takeWhile Char.isDigit).isEmpty then none
        else (exponent? t).map fun x => (Decimals.mk (s.takeWhile Char.isDigit) [] x.1, x.2))
      (if (s.takeWhile Char.isDigit).isEmpty then none
        else (exponent? t').map fun x => (Decimals.mk (s.takeWhile Char.isDigit) [] x.1, x.2)) := by
    intro t t' hext
    split
    · exact .none
    · have hexp := exponent?_extends ht hext
      generalize exponent? t = x, exponent? t' = y at hexp ⊢
      cases hexp with
      | none => exact .none
      | some hxy =>
        exact .some ⟨congrArg (Decimals.mk (s.takeWhile Char.isDigit) []) hxy.1, hxy.2⟩
  rcases hdrop.start_cases with ⟨rfl, he⟩ | ⟨x, t, t', -, rfl, rfl, hext⟩ |
    ⟨x, x', t, t', hx, hx', rfl, rfl⟩
  · cases r' with
    | nil => exact hwhole (.ends he)
    | cons x t =>
      have hpoint : x ≠ '.' := by
        rintro rfl
        exact (ht.mark (by decide : '.' ∈ marks)).2 _ he rfl
      simpa [hpoint] using hwhole (.ends he)
  · by_cases hpoint : x = '.'
    · subst hpoint
      obtain ⟨hfrac, hrest⟩ := digits_extends ht hext
      simp only [hfrac]
      split
      · exact .none
      · have hexp := exponent?_extends ht hrest
        generalize exponent? (t.dropWhile Char.isDigit) = y,
          exponent? (t'.dropWhile Char.isDigit) = y' at hexp ⊢
        cases hexp with
        | none => exact .some ⟨rfl, hrest⟩
        | some hxy => exact .some ⟨by rw [hxy.1], hxy.2⟩
    · simpa [hpoint] using hwhole hdrop
  · have hpoint : ∀ {x : Char}, isSpacing x = true → x ≠ '.' := by
      rintro x hx rfl
      cases hx
    simpa [hpoint hx, hpoint hx'] using hwhole hdrop

theorem integer?_extends : integer? s' = integer? s := by
  obtain ⟨htake, hdrop⟩ := digits_extends ht h
  unfold integer?
  simp only [htake, hdrop.any_head fun _ => ht.word]

end

theorem decimals?_append {d : Decimals} {r : Text} (h : decimals? s = some (d, r)) :
    ∃ w : Text, s = w ++ dropSuffix r ∧ w.IsAscii ∧ s.length - (dropSuffix r).length = w.length := by
  obtain ⟨w, hw, hascii⟩ := (decimals?_readsTo h).trans (dropSuffix_readsTo r)
  refine ⟨w, hw, hascii, ?_⟩
  conv => lhs; rw [hw, length_append, Nat.add_sub_cancel]

theorem Abreast.number? (h : m.Abreast c c') :
    m.Agree (Option.Rel (m.Alike Eq (c.weight + 1))) (number? c) (number? c') := by
  unfold Grammar.number?
  have hdec := decimals?_extends m.isTail h.rest
  generalize hx : decimals? c.rest = x, hy : decimals? c'.rest = y at hdec ⊢
  cases hdec with
  | none =>
    simp only [integer?_extends m.isTail h.rest]
    cases hint : integer? c.rest with
    | none => exact .ok .none
    | some digits =>
      unfold integer? at hint
      simp only at hint
      split at hint
      · cases hint
      · next hne =>
        cases hint
        refine .ok (.some ⟨rfl, (h.behindWhile (fun _ hch =>
          ⟨isSpacing_of_isDigit hch, isAscii_of_isDigit hch⟩) ?_).mono (Nat.le_succ _)⟩)
        intro hnil
        rw [hnil] at hne
        exact hne rfl
  | @some x y hleaves =>
    obtain ⟨d, r⟩ := x
    obtain ⟨d', r'⟩ := y
    obtain ⟨hd, hr⟩ := hleaves
    cases hd
    obtain ⟨w, hw, hascii, hlen⟩ := decimals?_append hx
    obtain ⟨w', hw', -, hlen'⟩ := decimals?_append hy
    simp only [hlen, hlen']
    split
    · refine .ok (.some ⟨rfl, h.past hw hascii (dropSuffix_extends m.isTail hr) ?_, ?_⟩)
      · rw [rest_skipBlanks, rest_advance hw']
      · unfold Cursor.weight
        rw [rest_skipBlanks, rest_advance hw, weight_skip, hw, weight_append]
        omega
    · exact .error h nofun

end Numbers

end March

end VecLang.Grammar
