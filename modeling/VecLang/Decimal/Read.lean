import VecLang.Decimal.Text

/-!
# Reading decimals

`ofDecimal mant exp` is the binary64 number nearest to `mant · 10 ^ exp`. Numbers
far out of range are settled by their number of digits, so no power of ten grows
with the exponent that a text asks for.

`ofText?` reads a whole text as a number: a sign, digits with a point among them and
an exponent, all but the digits optional, or the name of a number that is not finite.
-/

namespace VecLang.Decimal

def digitsValue (digits : List Char) : Nat :=
  digits.foldl (fun n c => 10 * n + (c.toNat - '0'.toNat)) 0

/-- The binary64 number nearest to `mant · 10 ^ exp`; a half goes to the even
significand, and what is too large becomes infinite. -/
def ofDecimal (mant : Nat) (exp : Int) : Float :=
  let magnitude : Int := (Nat.toDigits 10 mant).length + exp
  if mant = 0 then 0.0
  -- at least `10 ^ 310`, or below `10 ^ -330`
  else if magnitude > 310 then infinity
  else if magnitude < -330 then 0.0
  else
    match exp with
    | .ofNat e => Float.ofScientific mant false e
    | .negSucc e => Float.ofScientific mant true (e + 1)

/-- The number written with the digits `whole`, a point, the digits `frac` and
the exponent `exp`. -/
def ofDigits (whole frac : List Char) (exp : Int) : Float :=
  ofDecimal (digitsValue (whole ++ frac)) (exp - frac.length)

/-- The bits of the binary64 number nearest to `m`; a half goes to the even
significand. That has 53 bits, the first of them in the place of the exponent's last
one, so that a significand of `2 ^ 53` carries. -/
def bitsOfNat (m : Nat) : Nat :=
  if m = 0 then 0
  else (m.log2 + 1022) * Nat.pow 2 52 + roundHalfEven (m * Nat.pow 2 52) (Nat.pow 2 m.log2)

/-- The binary64 number nearest to a 64-bit integer. -/
def ofInteger (n : Int) : Float :=
  Float.ofBits (UInt64.ofNat ((if n < 0 then Nat.pow 2 63 else 0) + bitsOfNat n.natAbs))

/-- Whether a text starts with a minus sign, and the text after its sign. -/
def splitSign : List Char → Bool × List Char
  | '-' :: rest => (true, rest)
  | '+' :: rest => (false, rest)
  | text => (false, text)

/-- The exponent after its mark: a sign and digits up to the end. -/
def exponentOfText? (text : List Char) : Option Int :=
  let (neg, digits) := splitSign text
  if digits.isEmpty || !digits.all Char.isDigit then none
  else some (signed neg (digitsValue digits))

/-- The number in digits, a point and an exponent. -/
def digitsOfText? (text : List Char) : Option Float :=
  let (whole, rest) := text.span Char.isDigit
  let (frac, rest) :=
    match rest with
    | '.' :: rest => rest.span Char.isDigit
    | _ => ([], rest)
  if whole.isEmpty && frac.isEmpty then none
  else
    match rest with
    | [] => some (ofDigits whole frac 0)
    | c :: rest =>
      if c.toLower = 'e' then (exponentOfText? rest).map (ofDigits whole frac) else none

/-- The number that a text names or spells, without its sign. -/
def magnitudeOfText? (text : List Char) : Option Float :=
  let word := String.ofList (text.map Char.toLower)
  if word = "nan" then some notANumber
  else if word = "inf" || word = "infinity" then some infinity
  else digitsOfText? text

def ofText? (text : String) : Option Float :=
  let (neg, rest) := splitSign text.toList
  (magnitudeOfText? rest).map fun x => if neg then -x else x

end VecLang.Decimal
