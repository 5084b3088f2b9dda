import VecLang.Traversal.Basic
import VecLang.Context.Basic

/-!
# Traversals with scopes

A scope walk keeps the scopes of a context in step with the tree: a declaration binds
its name before its hook runs, a function opens a scope in which its return type is
bound, and a member access opens one in which `this` has the type of the base. The
hook sees each node with the scopes already set up, and says how to go on.
-/

namespace VecLang.ScopeWalk

open Traversal

/-- How a scope walk goes on after the hook of a node. -/
inductive Flow where
  /-- Into the children of the node. -/
  | descend
  /-- Past the subtree. -/
  | skip
  /-- Into these nodes, by which the node was replaced. -/
  | replaced (nodes : List NodeId)
deriving DecidableEq, Repr

/-- What a hook works on: the tree, the context, and the hook's own notes. -/
structure View (ω : Type) where
  arena : Arena
  context : Context
  notes : ω

abbrev Hook (ω : Type) := NodeId → Steps (View ω) Flow

structure Memory (ω : Type) where
  context : Context
  notes : ω

variable {ω : Type}

abbrev Walk (ω : Type) := Steps (World (Memory ω))

def setContext (ctx : Context) : Walk ω Unit :=
  modify fun w => { w with memory := { w.memory with context := ctx } }

def popScope : Walk ω Unit := do
  match (← get).memory.context.popScope with
  | .ok ctx => setContext ctx
  | .error e => throw e

def bindDeclaration (node : NodeId) : Walk ω Unit := do
  let w ← get
  let ctx := w.memory.context
  match w.arena.name? node, (w.arena.child? node 0).bind w.arena.type? with
  | some name, some t => setContext (ctx.bind name { type := t, decl? := some node })
  | _, _ => throw (ctx.locateAt w.arena node (.semantic .malformedDeclaration))

def openFunction (node : NodeId) : Walk ω Unit := do
  let w ← get
  let ctx := w.memory.context
  match (w.arena.child? node 0).bind w.arena.type? with
  | some t => setContext (ctx.pushScope.bindReturn t)
  | none => throw (ctx.locateAt w.arena node (.semantic .functionWithoutReturnType))

/-- Opens the scope of a member access and binds `this` where the base is a name. -/
def openMember (node : NodeId) : Walk ω Unit := do
  let w ← get
  let ctx := w.memory.context.pushScope
  setContext ctx
  match w.arena.child? node 0 with
  | none => pure ()
  | some base =>
    if w.arena.kind base = .ident then
      let name := (w.arena.name? base).getD ""
      match ctx.scopes.get? name with
      | some b => setContext (ctx.bind thisName { type := b.type })
      | none => throw (ctx.locateAt w.arena node (.undefinedSymbol name))

def isMemberAccess (l : Label) : Bool :=
  l.kind == .member || (l.kind == .binary && l.op == some .member)

/-- Sets up the scopes for a node and tells whether one was opened. -/
def openScope (node : NodeId) : Walk ω Bool := do
  let l := (← get).arena.label node
  if l.kind = .varDecl then
    bindDeclaration node
    return false
  else if l.kind = .function then
    openFunction node
    return true
  else if isMemberAccess l then
    openMember node
    return true
  else
    return false

def runHook (hook : Hook ω) (node : NodeId) : Walk ω Flow := fun w =>
  let view : View ω :=
    { arena := w.arena, context := w.memory.context, notes := w.memory.notes }
  let back (v : View ω) : World (Memory ω) :=
    { w with arena := v.arena, memory := { context := v.context, notes := v.notes } }
  match hook node view with
  | .ok flow v => .ok flow (back v)
  | .error e v => .error e (back v)

def thenAlways (steps cleanup : Walk ω Unit) : Walk ω Unit := fun w =>
  match steps w with
  | .ok () w => cleanup w
  | .error e w =>
    match cleanup w with
    | .ok () w => .error e w
    | .error e' w => .error e' w

def enterAll (enter : Enter Unit (Memory ω)) : List NodeId → Walk ω Unit
  | [] => pure ()
  | node :: rest => do
    enter node ()
    enterAll enter rest

/-- Handles a node: sets up its scopes, runs the hook, goes on as that says, and
leaves the node's scope. What replaces a node is entered outside its scope. -/
def handle (hook : Hook ω) : Handler Unit (Memory ω) := fun enter node _ => do
  let opened ← openScope node
  let close : Walk ω Unit := if opened then popScope else pure ()
  match ← runHook hook node with
  | .descend => thenAlways (descend enter node ()) close
  | .skip => close
  | .replaced nodes =>
    close
    release node
    enterAll enter nodes

/-- Walks the tree below `root` with a hook, in a scope of its own. After a failure
the scopes are left as they stood. -/
def walkScopes (limit : Nat) (hook : Hook ω) (root : NodeId) : Steps (View ω) Unit := fun v =>
  let start : World (Memory ω) :=
    { arena := v.arena, visited := [],
      memory := { context := v.context.pushScope, notes := v.notes } }
  let back (w : World (Memory ω)) : View ω :=
    { arena := w.arena, context := w.memory.context, notes := w.memory.notes }
  let steps : Walk ω Unit := do
    enterWithin (handle hook) limit root ()
    popScope
  match steps start with
  | .ok () w => .ok () (back w)
  | .error e w => .error e (back w)

end VecLang.ScopeWalk
