import VecLang.Decimal.Decode

/-!
# Decimal texts of binary64 numbers

Two texts, both exact in every digit they show and neither with an exponent:

* `shortest`: the fewest digits that read back as the same number, of two such
  texts the nearer one, and the greater one on a tie.
* `fixed`: a given number of digits after the point, a half going to the even
  neighbour.
-/

namespace VecLang.Decimal

/-- The natural number nearest to `num / den`; a half goes to the even one. -/
def roundHalfEven (num den : Nat) : Nat :=
  let q := num / den
  let r := num % den
  if 2 * r < den then q
  else if 2 * r > den then q + 1
  else if q % 2 = 0 then q else q + 1

/-- The decimal digits of `n`, at least `width` of them. -/
def padded (width n : Nat) : List Char :=
  let digits := Nat.toDigits 10 n
  List.replicate (width - digits.length) '0' ++ digits

/-- The digits of `n / 10 ^ places` with `places` of them after the point. -/
def withPoint (n places : Nat) : List Char :=
  if places = 0 then Nat.toDigits 10 n
  else Nat.toDigits 10 (n / Nat.pow 10 places) ++ '.' :: padded places (n % Nat.pow 10 places)

/-- The sign in front of a negative number, zero included. -/
def sign (neg : Bool) : List Char := if neg then ['-'] else []

/-- The real numbers that round to a given number: from `lo / den` to `hi / den`,
the ends belonging to it iff `closed`. The number itself is `mid / den`. -/
structure Interval where
  lo : Nat
  mid : Nat
  hi : Nat
  den : Nat
  closed : Bool
deriving Repr

namespace Interval

/-- The rounding interval of `mant · 2 ^ exp`. Below a power of two the neighbour
is half as far, unless the exponent is already the least one. -/
def ofDecoded (mant : Nat) (exp : Int) : Interval :=
  let (num, den) := toFraction mant (exp - 2)
  let unit := num / mant
  let below := if mant = Nat.pow 2 52 ∧ exp > -1074 then unit else 2 * unit
  { lo := 4 * num - below, mid := 4 * num, hi := 4 * num + 2 * unit, den := den,
    closed := mant % 2 = 0 }

/-- Whether `d / g` lies in the interval, for a grid of step `1 / g`. -/
def contains (i : Interval) (d g : Nat) : Bool :=
  if i.closed then i.lo * g ≤ d * i.den && d * i.den ≤ i.hi * g
  else i.lo * g < d * i.den && d * i.den < i.hi * g

/-- The grid point `d / g` of the interval nearest to its number, if there is
one; it is one of the two beside the number, the upper one on a tie. -/
def nearest? (i : Interval) (g : Nat) : Option Nat :=
  let d := i.mid * g / i.den
  let down := i.contains d g
  let up := i.contains (d + 1) g
  let nearerUp := (d + 1) * i.den - i.mid * g ≤ i.mid * g - d * i.den
  if down && up then some (if nearerUp then d + 1 else d)
  else if down then some d
  else if up then some (d + 1)
  else none

end Interval

/-- The first of the grids `10 ^ k, 10 ^ (k-1), …` that holds a point of the
interval, as the point's digits and the number of zeros after them. -/
def wholeDigits? (i : Interval) : Nat → Option (Nat × Nat)
  | 0 => none
  | k + 1 =>
    -- a grid of step `10 ^ k` is the unit grid of the interval scaled down
    match ({ i with den := i.den * Nat.pow 10 k } : Interval).nearest? 1 with
    | some d => some (d, k)
    | none => wholeDigits? i k

/-- The first of the grids `10 ^ -places` from `places` on, within `fuel` steps,
that holds a point of the interval. -/
def fractionDigits? (i : Interval) (places : Nat) : Nat → Option (Nat × Nat)
  | 0 => none
  | fuel + 1 =>
    match i.nearest? (Nat.pow 10 places) with
    | some d => some (d, places)
    | none => fractionDigits? i (places + 1) fuel

/-- The shortest decimal text of a positive number `mant · 2 ^ exp`. A binary64
number has at most 309 digits before the point, and 345 after it tell it from its
neighbours. -/
def shortestPositive (mant : Nat) (exp : Int) : List Char :=
  let i := Interval.ofDecoded mant exp
  match wholeDigits? i 310 with
  | some (d, zeros) => Nat.toDigits 10 d ++ List.replicate zeros '0'
  | none =>
    match fractionDigits? i 1 345 with
    | some (d, places) => withPoint d places
    | none => []

/-- The fewest digits that read back as the same number. -/
def shortest (x : Float) : String :=
  match decode x with
  | .nan => "NaN"
  | .infinite neg => if neg then "-inf" else "inf"
  | .finite neg mant exp =>
    String.ofList (sign neg ++ (if mant = 0 then ['0'] else shortestPositive mant exp))

/-- The number with `places` digits after the point. -/
def fixed (places : Nat) (x : Float) : String :=
  match decode x with
  | .nan => "NaN"
  | .infinite neg => if neg then "-inf" else "inf"
  | .finite neg mant exp =>
    let (num, den) := toFraction mant exp
    String.ofList (sign neg ++ withPoint (roundHalfEven (num * Nat.pow 10 places) den) places)

end VecLang.Decimal
