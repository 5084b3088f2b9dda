import VecLang.Context.Collect
import VecLang.Swizzle.Lower
import VecLang.Source.Macro

/-!
# Compiling a program

A source text is preprocessed and parsed, its slots are collected, and the passes
run over its tree in order, each from the scopes of the slots.
-/

namespace VecLang

/-- A tree and the context of its compilation. -/
structure Program where
  arena : Arena
  context : Context
deriving DecidableEq, Repr

abbrev Pass := Steps Program Unit

namespace Pass

def lowerSwizzles : Pass := fun p =>
  match Swizzle.lower { arena := p.arena, context := p.context, notes := () } with
  | .ok () v => .ok () { arena := v.arena, context := v.context }
  | .error e v => .error e { arena := v.arena, context := v.context }

def renameNode (new : String) (a : Arena) (id : NodeId) : Arena :=
  a.setLabel id { a.label id with value := some (.name new) }

/-- Gives every identifier `old` of the tree the name `new`. Members are identifiers,
declared names are not. -/
def rename (old new : String) : Pass :=
  modify fun p =>
    match p.arena.root? with
    | none => p
    | some root =>
      let sites := (p.arena.ofKind root .ident).filter (p.arena.name? · == some old)
      { p with arena := sites.foldl (renameNode new) p.arena }

/-- Fails unless `name` is bound to a known type. -/
def requireBound (name : String) : Pass := do
  let ctx := (← get).context
  match ctx.bindingType name with
  | .ok _ => pure ()
  | .error e => throw (ctx.locate none e)

def runFresh (pass : Pass) : Pass := do
  modify fun p => { p with context := p.context.resetScopes }
  pass

end Pass

structure CompileOptions where
  filename : String := "(anonymous)"
  lowerSwizzles : Bool := true
  /-- Further passes, after the lowering. -/
  passes : List Pass := []

namespace CompileOptions

def allPasses (o : CompileOptions) : List Pass :=
  (if o.lowerSwizzles then [Pass.lowerSwizzles] else []) ++ o.passes

end CompileOptions

/-- The slots of the parsed program, before any pass. -/
def Program.collectSlots (p : Program) : Except Error Program :=
  match Collect.slots p.arena p.context with
  | .ok () context => .ok { p with context }
  | .error e _ => .error e

def Program.runPasses (p : Program) (passes : List Pass) : Except Error Program :=
  match (passes.forM Pass.runFresh) p with
  | .ok () p => .ok p
  | .error e _ => .error e

/-- The program of a source text before any pass. -/
def parseProgram (source filename : String) : Except Error Program := do
  let context := Context.new source filename
  let preprocessed ← Macro.preprocess source
  let context := { context with preprocessed }
  let (arena, _) ← context.parse {} .program preprocessed
  Program.collectSlots { arena, context }

def compile (source : String) (options : CompileOptions) : Except Error Program := do
  let p ← parseProgram source options.filename
  p.runPasses options.allPasses

end VecLang
