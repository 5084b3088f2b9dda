import VecLang.Error
import VecLang.Table

/-!
# Resolving types

The type table says what each type name stands for. A name that stands for an
array resolves to that array, any other name in the table to itself, and an array
resolves through its elements.
-/

namespace VecLang

abbrev TypeTable := Table Ty

namespace TypeTable

/-- The canonical type that a type stands for. -/
def resolve (types : TypeTable) : Ty → Except Error Ty
  | .named name =>
    match types.get? name with
    | none => .error (.unknownType name)
    | some t => .ok (if t.isArray then t else .named name)
  | .array elem size shownAs => do return .array (← resolve types elem) size shownAs
  | .unsized elem shownAs => do return .unsized (← resolve types elem) shownAs

def sameType (types : TypeTable) (s t : Ty) : Except Error Bool := do
  let s ← types.resolve s
  let t ← types.resolve t
  return s.name == t.name

end TypeTable

end VecLang
