import VecLang.Context.Basic
import VecLang.Traversal.Basic

/-!
# Collecting slots and functions

The qualified declarations of a program become its slots, in source order, and its
functions overloads. Only what stands directly below the root counts.
-/

namespace VecLang.Collect

/-- Files the slot of a qualified declaration; a declaration without a qualifier is
none. -/
def declaration (arena : Arena) (ctx : Context) (node : NodeId) : Except Error Context :=
  match arena.child? node 0 with
  | none => .ok ctx
  | some typeNode =>
    match (arena.label typeNode).qualifier with
    | none => .ok ctx
    | some q =>
      match arena.name? node, arena.type? typeNode with
      | some name, some t =>
        (ctx.declareSlot q name { decl := node, type := t }).mapError (ctx.locateAt arena node)
      | _, _ => .error (ctx.locateAt arena node (.semantic .malformedDeclaration))

/-- The types of parameters, each of which must have one. -/
def parameterTypes (arena : Arena) (ctx : Context) : List NodeId → Except Error (List Ty)
  | [] => .ok []
  | param :: rest =>
    match (arena.child? param 0).bind arena.type? with
    | some t => return t :: (← parameterTypes arena ctx rest)
    | none => .error (ctx.locateAt arena param (.semantic .parameterWithoutType))

def function (arena : Arena) (ctx : Context) (node : NodeId) : Except Error Context := do
  let params := ((arena.child? node 1).map arena.children).getD []
  let args ← parameterTypes arena ctx params
  match (arena.child? node 0).bind arena.type? with
  | none => .error (ctx.locateAt arena node (.semantic .functionWithoutReturnType))
  | some ret =>
    let name := (arena.name? node).getD ""
    let (ctx, _) ← (ctx.addOverload name (.type ret) (args.map .type) none).mapError
      (ctx.locateAt arena node)
    return ctx

def item (arena : Arena) (node : NodeId) : Steps Context Unit := fun ctx =>
  let result :=
    match arena.kind node with
    | .varDecl => declaration arena ctx node
    | .function => function arena ctx node
    | _ => .ok ctx
  match result with
  | .ok ctx => .ok () ctx
  | .error e => .error e ctx

/-- Files a node that has `root` as its parent, and passes over every other. -/
def look (arena : Arena) (root node : NodeId) : Steps Context Unit :=
  if arena.parent? node = some root then item arena node else pure ()

/-- Files the slots and functions of a program, on a walk over its whole tree. What was
filed before a failure stays filed. -/
def slots (arena : Arena) : Steps Context Unit :=
  match arena.root? with
  | none => throw (.semantic .noProgram)
  | some root => Traversal.walk arena root (look arena root)

end VecLang.Collect
