import VecLang.Text.Basic

/-!
# Swizzles

The letters of an axis set name the components of a vector by position. A member of
one letter is an axis; a member of two or more different letters of one set is a
swizzle, which selects several components at once.

Each swizzle has three texts, with `$n1` for the vector: the constructor that reads
it, the assignments that write a vector `$n2` to it, and those that write the single
values `$a0`, `$a1`, … to it.
-/

namespace VecLang

/-- The letters of each axis set, in the order of the components. -/
def axisSets : List Text := ["xyzw".toList, "rgba".toList, "uvt".toList]

def axis? (member : String) : Option Nat :=
  match member.toList with
  | [c] => axisSets.findSome? (·.idxOf? c)
  | _ => none

/-- The components that a swizzle selects, in the order of its letters. -/
structure Swizzle where
  indices : List Nat
deriving DecidableEq, Repr

namespace Swizzle

/-- The swizzle that a member names with the letters of one set. -/
def ofSet? (letters : Text) (member : Text) : Option Swizzle :=
  if 2 ≤ member.length ∧ member.Nodup then
    (member.mapM letters.idxOf?).map Swizzle.mk
  else none

def ofMember? (member : String) : Option Swizzle := axisSets.findSome? (ofSet? · member.toList)

def width (s : Swizzle) : Nat := s.indices.length

def vectorName (s : Swizzle) : String := "vec" ++ toString s.width

def element (i : Nat) : String := "$n1[" ++ toString i ++ "]"

def readText (s : Swizzle) : String :=
  s.vectorName ++ "(" ++ ", ".intercalate (s.indices.map element) ++ ")"

/-- One assignment for each component, of what `value` gives for its place. -/
def writeTextWith (s : Swizzle) (value : Nat → String) : String :=
  "\n".intercalate (s.indices.mapIdx fun k i => element i ++ " = " ++ value k ++ ";")

def writeText (s : Swizzle) : String := s.writeTextWith fun k => "$n2[" ++ toString k ++ "]"

/-- The placeholder of the value at place `k`. -/
def argument (k : Nat) : String := "$a" ++ toString k

def unpackedWriteText (s : Swizzle) : String := s.writeTextWith argument

end Swizzle

end VecLang
