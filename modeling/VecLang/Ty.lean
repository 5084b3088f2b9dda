/-!
# Types

A type is a name or an array of a fixed or open length. Vectors and matrices are
arrays with a name of their own to be shown under: `vec3` is three floats shown as
`vec3`. Two types count as equal if they resolve to types of one `name`.
-/

namespace VecLang

inductive Ty where
  /-- A scalar, or a name that the type table explains. -/
  | named (name : String)
  /-- `size` elements, shown as `shownAs` if that is given. -/
  | array (elem : Ty) (size : Nat) (shownAs : Option String)
  /-- Any number of elements, shown as `shownAs` if that is given. -/
  | unsized (elem : Ty) (shownAs : Option String)
deriving DecidableEq, Repr, Inhabited

namespace Ty

/-- The name of a type: what it is shown as, or else its element's name with the
length in brackets. -/
def name : Ty → String
  | named n => n
  | array _ _ (some n) => n
  | unsized _ (some n) => n
  | array elem size none => elem.name ++ "[" ++ toString size ++ "]"
  | unsized elem none => elem.name ++ "[]"

/-- The character itself if a mangled name may hold it, and `_` otherwise. -/
def safeChar (c : Char) : Char :=
  if c.isAlphanum || c == '_' then c else '_'

/-- A text in which every character that a mangled name may not hold is `_`. -/
def safeText (s : String) : String := String.ofList (s.toList.map safeChar)

def safeName (t : Ty) : String := safeText t.name

/-- The name of the innermost element type. -/
def baseName : Ty → String
  | named n => n
  | array elem _ _ => elem.baseName
  | unsized elem _ => elem.baseName

def isArray : Ty → Bool
  | named _ => false
  | _ => true

def element? : Ty → Option Ty
  | named _ => none
  | array elem _ _ => some elem
  | unsized elem _ => some elem

def size? : Ty → Option Nat
  | array _ size _ => some size
  | _ => none

/-- The literal of the type's default value: zeros, bracketed as the arrays nest. -/
def zeroText : Ty → String
  | named _ => "0"
  | array elem size _ => "[" ++ ",".intercalate (List.replicate size elem.zeroText) ++ "]"
  | unsized _ _ => "[]"

/-- The number of scalars in the type's default value. -/
def zeroCount : Ty → Nat
  | named _ => 1
  | array elem size _ => size * elem.zeroCount
  | unsized _ _ => 0

end Ty

end VecLang
