/-!
# The exact value of a binary64 number

`decode` reads the sign, significand and exponent off the bits of a `Float`, so
that every later decision (rounding to a decimal, taking the floor) is made on
integers and never on a rounded result.
-/

namespace VecLang.Decimal

/-- What a binary64 number stands for: `finite neg mant exp` is `mant · 2 ^ exp`,
negated if `neg`. -/
inductive Decoded where
  | nan
  | infinite (neg : Bool)
  | finite (neg : Bool) (mant : Nat) (exp : Int)
deriving DecidableEq, Repr

def decode (x : Float) : Decoded :=
  let bits := x.toBits.toNat
  let neg := decide (Nat.pow 2 63 ≤ bits)
  let exp : Nat := bits / Nat.pow 2 52 % Nat.pow 2 11
  let frac := bits % Nat.pow 2 52
  if exp = 2047 then
    if frac = 0 then .infinite neg else .nan
  else if exp = 0 then .finite neg frac (-1074)
  else .finite neg (Nat.pow 2 52 + frac) ((exp : Int) - 1075)

def isFinite (x : Float) : Bool :=
  match decode x with
  | .finite .. => true
  | _ => false

def infinity : Float := Float.ofBits 0x7FF0000000000000

def notANumber : Float := Float.ofBits 0x7FF8000000000000

/-- A positive number `mant · 2 ^ exp` as a fraction of naturals. -/
def toFraction (mant : Nat) (exp : Int) : Nat × Nat :=
  match exp with
  | .ofNat e => (mant * Nat.pow 2 e, 1)
  | .negSucc e => (mant, Nat.pow 2 (e + 1))

def signed (neg : Bool) (n : Nat) : Int := if neg then -(n : Int) else n

/-- The greatest integer that is not above a finite number. -/
def floor (neg : Bool) (mant : Nat) (exp : Int) : Int :=
  let (num, den) := toFraction mant exp
  Int.fdiv (signed neg num) den

/-- The tolerance within which a number counts as its floor. -/
def wholeTolerance : Float := 1e-8

/-- Whether a finite number lies less than `wholeTolerance` above its floor. -/
def isNearlyWhole (neg : Bool) (mant : Nat) (exp : Int) : Bool :=
  let (num, den) := toFraction mant exp
  let above := Int.fmod (signed neg num) den
  match decode wholeTolerance with
  | .finite _ m e =>
    let (tnum, tden) := toFraction m e
    decide (above * tden < tnum * den)
  | _ => false

/-- Integers outside the 64-bit range move to the nearer end of it. -/
def clamp64 (n : Int) : Int := max (-Int.pow 2 63) (min n (Int.pow 2 63 - 1))

end VecLang.Decimal
