import VecLang.Emit.Source
import VecLang.Emit.JavaScript.Program
import VecLang.Program

/-!
# Targets

A target turns a compiled program into text and is chosen by its name. Besides the
text, generation tells the bindings that a host needs.
-/

namespace VecLang.Emit

structure Target where
  name : String
  generate : Program → Options → Except Error String

def rootOf (p : Program) : Except Error NodeId :=
  match p.arena.root? with
  | some root => .ok root
  | none => .error (.semantic .nothingToGenerate)

namespace Target

/-- JavaScript; the program needs a `main`. -/
def javaScript : Target where
  name := "js"
  generate p options := do
    let root ← rootOf p
    if p.context.overloads.hasName "main" then
      JavaScript.program options p.context p.arena root
    else .error (p.context.locate none (.semantic .noMain))

def source : Target where
  name := "internal"
  generate p options := do
    let root ← rootOf p
    Source.emit p.context options 0 (p.arena.tree root)

/-- The preprocessed text as it is, under a name of choice. -/
def echo (name : String) : Target where
  name := name
  generate p _ := .ok p.context.preprocessed

end Target

/-- The targets to choose from, in the order in which their names were registered. -/
structure Registry where
  targets : Table Target := {}

/-- A program in a target's text, and what its host must know. -/
structure Generated where
  text : String
  bindings : Bindings
deriving DecidableEq, Repr

namespace Registry

/-- Registers a target under its name, in the place of an earlier one of that name. -/
def register (r : Registry) (t : Target) : Registry := ⟨r.targets.insert t.name t⟩

def ofList (ts : List Target) : Registry := ts.foldl register {}

def builtin : Registry := ofList [.javaScript, .source]

def names (r : Registry) : List String := r.targets.keys

def generate (r : Registry) (p : Program) (target : String) (options : Options) :
    Except Error Generated :=
  match r.targets.get? target with
  | none => .error (.unknownTarget target)
  | some t => return { text := ← t.generate p options, bindings := .ofSlots p.context.slots }

end Registry

end VecLang.Emit
