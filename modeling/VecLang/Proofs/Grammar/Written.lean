import VecLang.Proofs.Grammar.Token
import VecLang.Proofs.Tree

/-!
# Written expressions

`Written types k s t`: the text `s` writes the tree `t` as an expression of level `k`
or tighter. Levels are binding strengths: 1 for assignments, 2 for conditional
expressions, 3 to 8 for binary operations, 9 for prefix operators, 10 for operands
with what follows them, and 11 for operands alone. The relation says which texts
write which trees and nothing of how they are read.

* `Written.head`: the characters with which a written expression can start.
* `Stops k r`: an expression of level `k` does not go on into `r`.
* `Opening`: the word with which an expression starts, and what cannot follow it.
-/

namespace VecLang

variable {j : Nat} {r : Text} {sym : String}

theorem Operator.length_symbol_le (op : Operator) : op.symbol.length ≤ 2 := by
  cases op <;> decide

namespace Grammar

def commas : List Text → Text
  | [] => []
  | s :: ss => s ++ ss.flatMap fun s => ',' :: ' ' :: s

/-- The text writes the tree as an expression of level `k` or tighter. -/
inductive Written (types : TypeTable) : Nat → Text → Tree → Prop
  | int {pos : Pos} {n : Nat} : n ≤ maxInt →
      Written types 11 (Nat.toDigits 10 n) (.valued .intConst pos (.int n) [])
  | float {pos : Pos} {whole frac : Text} : (∀ ch ∈ whole, ch.isDigit = true) →
      (∀ ch ∈ frac, ch.isDigit = true) → whole ≠ [] →
      Decimal.isFinite (Decimal.ofDigits whole frac 0) = true →
      Written types 11 (whole ++ '.' :: frac)
        (.valued .floatConst pos (.float (Decimal.ofDigits whole frac 0)) [])
  | bool {pos : Pos} (b : Bool) :
      Written types 11 (if b then "true" else "false").toList
        (.valued .boolConst pos (.bool b) [])
  | name {pos : Pos} {n : String} : IsName n → types.get? n = none →
      Written types 11 n.toList (.valued .ident pos (.name n) [])
  | construct {pos tpos apos : Pos} {n : String} {ty : Ty} (items : List (Text × Tree)) :
      IsName n → types.get? n = some ty → (∀ i ∈ items, Written types 1 i.1 i.2) →
      Written types 11 (n.toList ++ '(' :: (commas (items.map Prod.fst) ++ [')']))
        (.plain .call pos [.valued .varType tpos (.type ty) [],
          .plain .args apos (items.map Prod.snd)])
  | parens {s : Text} {t : Tree} : Written types 1 s t → Written types 11 ('(' :: (s ++ [')'])) t
  | index {pos : Pos} {s s' : Text} {b i : Tree} : Written types 10 s b → Written types 1 s' i →
      Written types 10 (s ++ '[' :: (s' ++ [']'])) (.plain .index pos [b, i])
  | member {pos mpos : Pos} {s : Text} {b : Tree} {m : String} : Written types 10 s b →
      b.kind ≠ .intConst → IsName m →
      Written types 10 (s ++ '.' :: m.toList)
        (.plain .member pos [b, .valued .ident mpos (.name m) []])
  | call {pos apos : Pos} {s : Text} {f : Tree} (items : List (Text × Tree)) :
      Written types 10 s f → f.kind = .ident → (∀ i ∈ items, Written types 1 i.1 i.2) →
      Written types 10 (s ++ '(' :: (commas (items.map Prod.fst) ++ [')']))
        (.plain .call pos [f, .plain .args apos (items.map Prod.snd)])
  | unary {pos : Pos} {op : Operator} {s : Text} {t : Tree} : op = .neg ∨ op = .not →
      Written types 10 s t → Written types 9 (op.symbol.toList ++ s) (.operated .unary pos op [t])
  | binary {pos : Pos} {op : Operator} {s s' : Text} {l r : Tree} : op ∈ levels.flatten →
      Written types op.precedence s l → Written types (op.precedence + 1) s' r →
      Written types op.precedence (s ++ ' ' :: (op.symbol.toList ++ ' ' :: s'))
        (.operated .binary pos op [l, r])
  | ternary {pos : Pos} {s s' s'' : Text} {c y n : Tree} : Written types 3 s c →
      Written types 1 s' y → Written types 2 s'' n →
      Written types 2 (s ++ ' ' :: '?' :: ' ' :: (s' ++ ' ' :: ':' :: ' ' :: s''))
        (.plain .ternary pos [c, y, n])
  | assign {pos : Pos} {s s' : Text} {l r : Tree} : Written types 2 s l → Written types 1 s' r →
      Written types 1 (s ++ ' ' :: '=' :: ' ' :: s') (.operated .assign pos .assign [l, r])
  | looser {k : Nat} {s : Text} {t : Tree} : 1 ≤ k → k ≤ 10 → Written types (k + 1) s t →
      Written types k s t

variable {types : TypeTable} {k : Nat} {s : Text} {t : Tree}

theorem Written.mono (h : Written types k s t) (hj : 1 ≤ j) (hjk : j ≤ k) (hk : k ≤ 11) :
    Written types j s t := by
  induction hjk with
  | refl => exact h
  | step hle ih => exact ih (.looser (Nat.le_trans hj hle) (by omega) h) (by omega)

theorem Written.atom (h : Written types 11 s t) : Written types 10 s t :=
  h.looser (by decide) (by decide)

/-- A character with which an expression of level `k` can start. -/
def Starts (k : Nat) (ch : Char) : Prop :=
  Text.isWordChar ch = true ∨ ch = '(' ∨ (k ≤ 9 ∧ (ch = '-' ∨ ch = '!'))

theorem toDigits_cons (n : Nat) :
    ∃ ch s, Nat.toDigits 10 n = ch :: s ∧ Text.isWordChar ch = true := by
  cases h : Nat.toDigits 10 n with
  | nil => exact absurd h Nat.toDigits_ne_nil
  | cons ch s =>
    exact ⟨ch, s, rfl, isWordChar_of_isDigit (toDigits_isDigit ch (h ▸ List.mem_cons_self))⟩

theorem IsName.cons {n : String} (h : IsName n) :
    ∃ ch s, n.toList = ch :: s ∧ Text.isWordStart ch = true := by
  have hh := h.head
  cases hl : n.toList with
  | nil => rw [hl] at hh; cases hh
  | cons ch s => rw [hl] at hh; exact ⟨ch, s, rfl, hh⟩

theorem Written.head (h : Written types k s t) : ∃ ch s', s = ch :: s' ∧ Starts k ch := by
  induction h with
  | @int _ n _ =>
    obtain ⟨ch, s, he, hw⟩ := toDigits_cons n
    exact ⟨ch, s, he, .inl hw⟩
  | @float _ whole frac hw _ hne _ =>
    cases whole with
    | nil => exact absurd rfl hne
    | cons ch whole =>
      exact ⟨ch, _, rfl, .inl (isWordChar_of_isDigit (hw ch (.head _)))⟩
  | bool b => cases b <;> exact ⟨_, _, rfl, .inl (by decide)⟩
  | name hn _ =>
    obtain ⟨ch, s, he, hw⟩ := hn.cons
    exact ⟨ch, s, he, .inl (Text.isWordChar_of_isWordStart hw)⟩
  | construct _ hn _ _ _ =>
    obtain ⟨ch, s, he, hw⟩ := hn.cons
    exact ⟨ch, _, by rw [he]; rfl, .inl (Text.isWordChar_of_isWordStart hw)⟩
  | parens _ _ => exact ⟨'(', _, rfl, .inr (.inl rfl)⟩
  | index _ _ ih _ | member _ _ _ ih | call _ _ _ _ ih _ =>
    obtain ⟨ch, s, rfl, hs⟩ := ih
    exact ⟨ch, _, rfl, hs⟩
  | unary hop _ _ =>
    rcases hop with rfl | rfl
    · exact ⟨'-', _, rfl, .inr (.inr ⟨by omega, .inl rfl⟩)⟩
    · exact ⟨'!', _, rfl, .inr (.inr ⟨by omega, .inr rfl⟩)⟩
  | binary _ _ _ ih _ =>
    obtain ⟨ch, s, rfl, hs⟩ := ih
    exact ⟨ch, _, rfl, hs⟩
  | ternary _ _ _ ih _ _ | assign _ _ ih _ =>
    obtain ⟨ch, s, rfl, hs⟩ := ih
    refine ⟨ch, _, rfl, ?_⟩
    rcases hs with hs | hs | ⟨_, hs⟩
    · exact .inl hs
    · exact .inr (.inl hs)
    · exact .inr (.inr ⟨by omega, hs⟩)
  | looser _ _ _ ih =>
    obtain ⟨ch, s, rfl, hs⟩ := ih
    refine ⟨ch, s, rfl, ?_⟩
    rcases hs with hs | hs | ⟨_, hs⟩
    · exact .inl hs
    · exact .inr (.inl hs)
    · exact .inr (.inr ⟨by omega, hs⟩)

theorem Starts.isSpacing {ch : Char} (h : Starts k ch) : isSpacing ch = false := by
  rcases h with h | rfl | ⟨_, rfl | rfl⟩
  · exact isSpacing_of_isWordChar h
  all_goals rfl

theorem Written.skip_append (h : Written types k s t) (r : Text) : skip (s ++ r) = s ++ r := by
  obtain ⟨ch, s', rfl, hs⟩ := h.head
  exact skip_cons hs.isSpacing

/-- Whether an operator stands next, and not a longer one that starts like it. -/
def opAt (r : Text) (sym : String) : Bool := (Cursor.mk r 0).startsWithOp sym

/-- An expression of level `k` does not go on into `r`. -/
structure Stops (k : Nat) (r : Text) : Prop where
  bracket : k ≤ 10 → r.head? ≠ some '[' ∧ r.head? ≠ some '.' ∧ r.head? ≠ some '('
  operator : ∀ op ∈ levels.flatten, k ≤ op.precedence → opAt r op.symbol = false
  mark : k ≤ 2 → r.head? ≠ some '?'
  assigns : k ≤ 1 → ∀ a ∈ assignments, opAt r a.1 = false

theorem Stops.mono (h : Stops k r) (hk : k ≤ j) : Stops j r where
  bracket hj := h.bracket (Nat.le_trans hk hj)
  operator op hop hj := h.operator op hop (Nat.le_trans hk hj)
  mark hj := h.mark (Nat.le_trans hk hj)
  assigns hj := h.assigns (Nat.le_trans hk hj)

theorem opAt_append {a : Text} (ha : 2 ≤ a.length) (h : sym.length ≤ a.length) :
    opAt (a ++ r) sym = opAt a sym := by
  have hpre : sym.toList.isPrefixOf (a ++ r) = sym.toList.isPrefixOf a := by
    rw [Bool.eq_iff_iff, List.isPrefixOf_iff_prefix, List.isPrefixOf_iff_prefix]
    constructor
    · intro hp
      exact List.prefix_of_prefix_length_le hp (List.prefix_append a r)
        (by rw [String.length_toList]; exact h)
    · exact fun hp => hp.trans (List.prefix_append a r)
  have hhead : ((a ++ r).drop 1).head? = (a.drop 1).head? := by
    match a, ha with
    | x :: y :: a, _ => rfl
  simp only [opAt, Cursor.startsWithOp, Cursor.startsWith, hpre, hhead]

theorem opAt_eq_false (h : ∀ ch ∈ r.head?, sym.toList.head? ≠ some ch) (hne : sym.toList ≠ []) :
    opAt r sym = false := by
  cases hs : sym.toList with
  | nil => exact absurd hs hne
  | cons x l =>
    have hpre : sym.toList.isPrefixOf r = false := by
      rw [hs]
      cases r with
      | nil => rfl
      | cons ch r =>
        have hx : x ≠ ch := fun hx => h ch rfl (by rw [hs, hx]; rfl)
        simp [List.isPrefixOf, hx]
    simp only [opAt, Cursor.startsWithOp, Cursor.startsWith, hpre, Bool.false_and]

theorem find?_assignments {c : Cursor} (h : ∀ a ∈ assignments, opAt c.rest a.1 = false) :
    assignments.find? (c.startsWithOp ·.1) = none :=
  List.find?_eq_none.2 fun a ha => Bool.not_eq_true _ ▸ h a ha

/-- The characters that end an expression of any level. -/
def closers : List Char := [')', ']', ',', ';', ':']

theorem stops_of_head (h : ∀ ch ∈ r.head?, ch ∈ closers) : Stops k r := by
  have hne : ∀ ch : Char, ch ∉ closers → r.head? ≠ some ch := fun ch hch he => hch (h ch he)
  refine ⟨fun _ => ⟨hne _ (by decide), hne _ (by decide), hne _ (by decide)⟩, ?_,
    fun _ => hne _ (by decide), ?_⟩
  · intro op hop _
    have : ∀ op ∈ levels.flatten, op.symbol.toList ≠ [] ∧
        ∀ ch ∈ closers, op.symbol.toList.head? ≠ some ch := by decide
    exact opAt_eq_false (fun ch hch => (this op hop).2 ch (h ch hch)) (this op hop).1
  · intro _ a ha
    have : ∀ a ∈ assignments, a.1.toList ≠ [] ∧
        ∀ ch ∈ closers, a.1.toList.head? ≠ some ch := by decide
    exact opAt_eq_false (fun ch hch => (this a ha).2 ch (h ch hch)) (this a ha).1

theorem stops_mark : Stops 3 ('?' :: r) := by
  refine ⟨fun _ => by simp, ?_, fun h => absurd h (by decide), fun h => absurd h (by decide)⟩
  intro op hop _
  have : ∀ op ∈ levels.flatten, op.symbol.toList ≠ [] ∧ op.symbol.toList.head? ≠ some '?' := by
    decide
  refine opAt_eq_false (fun ch hch => ?_) (this op hop).1
  cases hch
  exact (this op hop).2

theorem stops_assign : Stops 2 ('=' :: ' ' :: r) := by
  refine ⟨fun _ => by simp, ?_, fun _ => by simp, fun h => absurd h (by decide)⟩
  intro op hop _
  have : ∀ op ∈ levels.flatten, opAt ['=', ' '] op.symbol = false := by decide
  rw [← this op hop]
  exact opAt_append (a := ['=', ' ']) (by decide) op.length_symbol_le

theorem stops_operator {op : Operator} (hop : op ∈ levels.flatten) :
    Stops (op.precedence + 1) (op.symbol.toList ++ ' ' :: r) := by
  have hfact : ∀ op ∈ levels.flatten, 2 ≤ (op.symbol.toList ++ [' ']).length ∧
      3 ≤ op.precedence ∧
      (∀ ch ∈ (op.symbol.toList ++ [' ']).head?, ch ∉ ['[', '.', '(']) ∧
      ∀ op' ∈ levels.flatten, op.precedence + 1 ≤ op'.precedence →
        opAt (op.symbol.toList ++ [' ']) op'.symbol = false := by decide
  obtain ⟨hlen, hprec, hhead, hops⟩ := hfact op hop
  have hsplit : op.symbol.toList ++ ' ' :: r = (op.symbol.toList ++ [' ']) ++ r := by simp
  rw [hsplit]
  have hne : ∀ ch : Char, ch ∈ ['[', '.', '('] →
      ((op.symbol.toList ++ [' ']) ++ r).head? ≠ some ch := by
    intro ch hch he
    refine hhead ch ?_ hch
    cases ha : op.symbol.toList ++ [' '] with
    | nil => rw [ha] at hlen; exact absurd hlen (by decide)
    | cons x a => rw [ha] at he; exact he
  refine ⟨fun _ => ⟨hne _ (by simp), hne _ (by simp), hne _ (by simp)⟩, ?_,
    fun h => absurd h (by omega), fun h => absurd h (by omega)⟩
  intro op' hop' hle
  rw [opAt_append hlen (Nat.le_trans op'.length_symbol_le hlen)]
  exact hops op' hop' hle

end Grammar

end VecLang
