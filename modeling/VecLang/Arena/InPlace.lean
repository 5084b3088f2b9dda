import VecLang.Arena.Edit

/-!
# Edits in place

The same edits, step by step on one arena that changes as they go. A tree that was read is
made so: first a node, then what is below it, and each subtree is appended once it is
complete, by a `push` that looks for a cycle first.
-/

namespace VecLang

/-- Steps on one arena. What was done before a step that fails stays done. -/
abbrev Editing := Steps Arena

namespace InPlace

def checkNoCycle (parent id : NodeId) : Editing Unit := do
  if (← get).isAncestor id parent then
    throw (.badArgument (.cycle id parent))

/-- Takes a node out of its parent: first the link up, then the link down. -/
def detach (id : NodeId) : Editing Unit := do
  match (← get).parent? id with
  | none => pure ()
  | some p =>
    modify fun a => a.setParent id none
    modify fun a => a.setChildren p ((a.children p).filter (· != id))

def attach (parent id : NodeId) : Editing Unit := do
  modify fun a => a.setChildren parent (a.children parent ++ [id])
  modify fun a => a.setParent id (some parent)

def addBelow (parent : NodeId) (l : Label) : Editing Unit := do
  let id := (← get).size
  modify fun a => (a.add l).1
  attach parent id

def push (parent : NodeId) (child : Arena.Child) : Editing Unit := do
  let pos := (← get).pos parent
  match child with
  | .node id =>
    checkNoCycle parent id
    detach id
    attach parent id
  | .number x =>
    match Arena.numberLabel pos x with
    | some l => addBelow parent l
    | none => throw (.badArgument (.nonFinite x))
  | .ident name =>
    if name.isEmpty then throw (.badArgument .emptyName)
    else addBelow parent { kind := .ident, pos, value := some (.name name) }
  | .type t => addBelow parent { kind := .varType, pos, value := some (.type t) }

mutual

/-- Makes the nodes of a tree in preorder, the root first. -/
def graft : Tree → Editing NodeId
  | .node l ts => do
    let id := (← get).size
    modify fun a => (a.add l).1
    graftAll id ts
    return id

/-- Makes the nodes of each tree of a list and appends its root to `parent`. -/
def graftAll (parent : NodeId) : List Tree → Editing Unit
  | [] => pure ()
  | t :: ts => do
    let id ← graft t
    push parent (.node id)
    graftAll parent ts

end

end InPlace

end VecLang
