import VecLang.Error
import VecLang.Table

/-!
# Slots

A slot is a top-level variable bound to the world outside the program. The slots of
each qualifier are kept in source order, which numbers them. A name is a slot of at
most one qualifier.
-/

namespace VecLang

/-- A qualified declaration: its node and its type as declared. -/
structure Slot where
  decl : NodeId
  type : Ty
deriving DecidableEq, Repr

structure Slots where
  inputs : Table Slot := {}
  outputs : Table Slot := {}
  uniforms : Table Slot := {}
deriving DecidableEq, Repr

namespace Slots

def table (s : Slots) : Qualifier → Table Slot
  | .input => s.inputs
  | .output => s.outputs
  | .uniform => s.uniforms

def qualifier? (s : Slots) (name : String) : Option Qualifier :=
  Qualifier.all.find? fun q => (s.table q).contains name

def find? (s : Slots) (name : String) : Option Slot :=
  (s.qualifier? name).bind fun q => (s.table q).get? name

/-- The slots with one more, which may not have the name of another. -/
def declare (s : Slots) (q : Qualifier) (name : String) (slot : Slot) : Except Error Slots :=
  match s.qualifier? name with
  | some existing => .error (.semantic (.duplicateSlot name existing))
  | none =>
    .ok
      (match q with
      | .input => { s with inputs := s.inputs.insert name slot }
      | .output => { s with outputs := s.outputs.insert name slot }
      | .uniform => { s with uniforms := s.uniforms.insert name slot })

/-- All slots with their names: inputs, then outputs, then uniforms. -/
def all (s : Slots) : List (String × Slot) :=
  s.inputs.entries ++ s.outputs.entries ++ s.uniforms.entries

end Slots

end VecLang
