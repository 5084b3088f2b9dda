import VecLang.Context.Slot

/-!
# Bindings

What a host must know to run a generated program: the order of the inputs, the names
of the uniforms, and the place of each output, all in source order.
-/

namespace VecLang.Emit

/-- How a host talks to a generated program. -/
structure Bindings where
  /-- Each output with its place among the outputs. -/
  outputs : List (String × Nat)
  /-- Each output with the name of its declared type. -/
  outputTypes : List (String × String)
  inputs : List String
  uniforms : List String
deriving DecidableEq, Repr

namespace Bindings

def ofSlots (slots : Slots) : Bindings :=
  { outputs := slots.outputs.keys.zipIdx
    outputTypes := slots.outputs.entries.map fun (name, slot) => (name, slot.type.name)
    inputs := slots.inputs.keys
    uniforms := slots.uniforms.keys }

def outputCount (b : Bindings) : Nat := b.outputs.length

def place? (b : Bindings) (name : String) : Option Nat := b.outputs.lookup name

end Bindings

end VecLang.Emit
