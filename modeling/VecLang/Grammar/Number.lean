import VecLang.Grammar.Cursor
import VecLang.Decimal.Read

/-!
# Number literals

A literal with a point or an exponent is a binary64 number and may end in `f`; one
without is an integer of 64 bits and no word may follow it directly.
-/

namespace VecLang.Grammar

structure Decimals where
  whole : Text
  frac : Text
  exp : Int
deriving DecidableEq, Repr

def exponent? : Text → Option (Int × Text)
  | [] => none
  | e :: rest =>
    if e == 'e' || e == 'E' then
      let (neg, rest) :=
        match rest with
        | '-' :: r => (true, r)
        | '+' :: r => (false, r)
        | r => (false, r)
      let digits := rest.takeWhile Char.isDigit
      if digits.isEmpty then none
      else some (Decimal.signed neg (Decimal.digitsValue digits), rest.dropWhile Char.isDigit)
    else none

/-- The parts of a literal with a point or an exponent, and the text after them. -/
def decimals? (s : Text) : Option (Decimals × Text) :=
  let whole := s.takeWhile Char.isDigit
  match s.dropWhile Char.isDigit with
  | '.' :: rest =>
    let frac := rest.takeWhile Char.isDigit
    let afterFrac := rest.dropWhile Char.isDigit
    if whole.isEmpty && frac.isEmpty then none
    else
      match exponent? afterFrac with
      | some (exp, rest) => some ({ whole, frac, exp }, rest)
      | none => some ({ whole, frac, exp := 0 }, afterFrac)
  | rest =>
    if whole.isEmpty then none
    else (exponent? rest).map fun (exp, rest) => ({ whole, frac := [], exp }, rest)

/-- The text after the suffix that a literal with a point or an exponent may have. -/
def dropSuffix : Text → Text
  | 'f' :: rest => rest
  | rest => rest

def maxInt : Nat := Nat.pow 2 63 - 1

/-- The digits of an integer literal, if one stands next. -/
def integer? (s : Text) : Option Text :=
  let digits := s.takeWhile Char.isDigit
  if digits.isEmpty || (s.dropWhile Char.isDigit).head?.any Text.isWordChar ||
      Decimal.digitsValue digits > maxInt then none
  else some digits

def number? (c : Cursor) : Parse (Option (At Value)) :=
  match decimals? c.rest with
  | some (d, rest) =>
    let x := Decimal.ofDigits d.whole d.frac d.exp
    if Decimal.isFinite x then
      let rest := dropSuffix rest
      .ok (some (.float x, (c.advance (c.rest.length - rest.length)).skipBlanks))
    else .error ⟨c, .literalOutOfRange⟩
  | none =>
    match integer? c.rest with
    | some digits =>
      .ok (some (.int (Decimal.digitsValue digits), (c.advance digits.length).skipBlanks))
    | none => .ok none

end VecLang.Grammar
