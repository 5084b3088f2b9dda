import VecLang.Arena.Basic

/-!
# Edits of the arena

Nodes are made detached and then moved: every edit first takes the node out of
its old place, so that a node has at most one parent and is listed there once. An
edit that would put a node below itself fails and changes nothing.

* `add`, `graft`: make one node, or a whole tree in preorder.
* `push`, `insert`, `replace`, `remove`, `detach`: move a node.
* `copy`: graft the tree of a node again.
-/

namespace VecLang.Arena

/-- The arena with a further node, detached and without children, and its id. -/
def add (a : Arena) (l : Label) : Arena × NodeId :=
  ({ a with nodes := a.nodes.push { label := l } }, a.size)

def modify (a : Arena) (id : NodeId) (f : Node → Node) : Arena :=
  { a with nodes := a.nodes.modify id f }

def setLabel (a : Arena) (id : NodeId) (l : Label) : Arena :=
  a.modify id fun n => { n with label := l }

def setChildren (a : Arena) (id : NodeId) (ids : List NodeId) : Arena :=
  a.modify id fun n => { n with children := ids }

def setParent (a : Arena) (id : NodeId) (p : Option NodeId) : Arena :=
  a.modify id fun n => { n with parent? := p }

def setRoot (a : Arena) (id : NodeId) : Arena := { a with root? := some id }

@[simp] theorem size_add (a : Arena) (l : Label) : (a.add l).1.size = a.size + 1 := by
  simp [add, size]

@[simp] theorem size_modify (a : Arena) (id : NodeId) (f : Node → Node) :
    (a.modify id f).size = a.size := by
  simp [modify, size]

theorem label_add (a : Arena) (l : Label) (id : NodeId) :
    (a.add l).1.label id = if id = a.size then l else a.label id := by
  by_cases h : id = a.nodes.size <;> simp [add, label, size, Array.getElem?_push, h]

@[simp] theorem children_add (a : Arena) (l : Label) (id : NodeId) :
    (a.add l).1.children id = a.children id := by
  by_cases h : id = a.nodes.size <;> simp [add, children, Array.getElem?_push, h]

@[simp] theorem parent?_add (a : Arena) (l : Label) (id : NodeId) :
    (a.add l).1.parent? id = a.parent? id := by
  by_cases h : id = a.nodes.size <;> simp [add, parent?, Array.getElem?_push, h]

theorem children_setChildren (a : Arena) (id : NodeId) (ids : List NodeId) (other : NodeId) :
    (a.setChildren id ids).children other =
      if id = other ∧ id < a.size then ids else a.children other := by
  simp only [setChildren, modify, children, size, Array.getElem?_modify]
  by_cases h : id = other
  · subst h
    by_cases hlt : id < a.nodes.size <;> simp [hlt]
  · simp [h]

@[simp] theorem parent?_setChildren (a : Arena) (id : NodeId) (ids : List NodeId)
    (other : NodeId) : (a.setChildren id ids).parent? other = a.parent? other := by
  simp only [setChildren, modify, parent?, Array.getElem?_modify]
  by_cases h : id = other
  · subst h
    cases a.nodes[id]? <;> simp
  · simp [h]

@[simp] theorem label_setChildren (a : Arena) (id : NodeId) (ids : List NodeId)
    (other : NodeId) : (a.setChildren id ids).label other = a.label other := by
  simp only [setChildren, modify, label, Array.getElem?_modify]
  by_cases h : id = other
  · subst h
    cases a.nodes[id]? <;> simp
  · simp [h]

theorem parent?_setParent (a : Arena) (id : NodeId) (p : Option NodeId) (other : NodeId) :
    (a.setParent id p).parent? other =
      if id = other ∧ id < a.size then p else a.parent? other := by
  simp only [setParent, modify, parent?, size, Array.getElem?_modify]
  by_cases h : id = other
  · subst h
    by_cases hlt : id < a.nodes.size <;> simp [hlt]
  · simp [h]

@[simp] theorem children_setParent (a : Arena) (id : NodeId) (p : Option NodeId)
    (other : NodeId) : (a.setParent id p).children other = a.children other := by
  simp only [setParent, modify, children, Array.getElem?_modify]
  by_cases h : id = other
  · subst h
    cases a.nodes[id]? <;> simp
  · simp [h]

@[simp] theorem label_setParent (a : Arena) (id : NodeId) (p : Option NodeId)
    (other : NodeId) : (a.setParent id p).label other = a.label other := by
  simp only [setParent, modify, label, Array.getElem?_modify]
  by_cases h : id = other
  · subst h
    cases a.nodes[id]? <;> simp
  · simp [h]

theorem label_setLabel (a : Arena) (id : NodeId) (l : Label) (other : NodeId) :
    (a.setLabel id l).label other = if id = other ∧ id < a.size then l else a.label other := by
  simp only [setLabel, modify, label, size, Array.getElem?_modify]
  by_cases h : id = other
  · subst h
    by_cases hlt : id < a.nodes.size <;> simp [hlt]
  · simp [h]

@[simp] theorem children_setLabel (a : Arena) (id : NodeId) (l : Label) (other : NodeId) :
    (a.setLabel id l).children other = a.children other := by
  simp only [setLabel, modify, children, Array.getElem?_modify]
  by_cases h : id = other
  · subst h
    cases a.nodes[id]? <;> simp
  · simp [h]

@[simp] theorem parent?_setLabel (a : Arena) (id : NodeId) (l : Label) (other : NodeId) :
    (a.setLabel id l).parent? other = a.parent? other := by
  simp only [setLabel, modify, parent?, Array.getElem?_modify]
  by_cases h : id = other
  · subst h
    cases a.nodes[id]? <;> simp
  · simp [h]

def attach (a : Arena) (parent id : NodeId) : Arena :=
  (a.setChildren parent (a.children parent ++ [id])).setParent id (some parent)

mutual

/-- Makes the nodes of a tree in preorder, the root first. -/
def graft (a : Arena) : Tree → Arena × NodeId
  | .node l ts =>
    let (a, id) := a.add l
    (graftAll a id ts, id)

/-- Makes the nodes of each tree of a list and attaches its root to `parent`. -/
def graftAll (a : Arena) (parent : NodeId) : List Tree → Arena
  | [] => a
  | t :: ts =>
    let (a, id) := graft a t
    graftAll (a.attach parent id) parent ts

end

def addBelow (a : Arena) (parent : NodeId) (l : Label) : Arena × NodeId :=
  let (a, id) := a.add l
  (a.attach parent id, id)

def detach (a : Arena) (id : NodeId) : Arena :=
  match a.parent? id with
  | none => a
  | some p => (a.setParent id none).setChildren p ((a.children p).filter (· != id))

/-- Fails if `id` is `parent` or lies above it. -/
def checkNoCycle (a : Arena) (parent id : NodeId) : Except Error Unit :=
  if a.isAncestor id parent then .error (.badArgument (.cycle id parent)) else .ok ()

/-- What can be appended to a node: a node, or a literal for which one is made. -/
inductive Child where
  | node (id : NodeId)
  | number (x : Float)
  | ident (name : String)
  | type (t : Ty)
deriving Repr

/-- An integer is appended as the nearest binary64 number. -/
def Child.ofInt (n : Int) : Child := .number (Decimal.ofInteger n)

/-- The node made for a number: an integer if the number is nearly whole. -/
def numberLabel (pos : Pos) (x : Float) : Option Label :=
  match Decimal.decode x with
  | .finite neg mant exp =>
    if Decimal.isNearlyWhole neg mant exp then
      some { kind := .intConst, pos,
             value := some (.int (Decimal.clamp64 (Decimal.floor neg mant exp))) }
    else some { kind := .floatConst, pos, value := some (.float x) }
  | _ => none

def pushNode (a : Arena) (parent id : NodeId) : Except Error Arena := do
  a.checkNoCycle parent id
  return (a.detach id).attach parent id

/-- Appends a child to `parent` and tells its id. A node made for a literal stands
where its parent does. -/
def push (a : Arena) (parent : NodeId) : Child → Except Error (Arena × NodeId)
  | .node id => do return (← a.pushNode parent id, id)
  | .number x =>
    match numberLabel (a.pos parent) x with
    | some l => .ok (a.addBelow parent l)
    | none => .error (.badArgument (.nonFinite x))
  | .ident name =>
    if name.isEmpty then .error (.badArgument .emptyName)
    else .ok (a.addBelow parent { kind := .ident, pos := a.pos parent, value := some (.name name) })
  | .type t =>
    .ok (a.addBelow parent { kind := .varType, pos := a.pos parent, value := some (.type t) })

/-- Moves a node to `index` among the children of `parent`. The index may count
the node itself; past the end of the list without it, it is the end. -/
def insert (a : Arena) (parent : NodeId) (index : Nat) (id : NodeId) : Except Error Arena := do
  let count := (a.children parent).length
  if index > count then
    .error (.badArgument (.indexOutOfRange index parent count))
  a.checkNoCycle parent id
  let a := a.detach id
  -- without the node itself the list may end before the index
  let others := a.children parent
  return (a.setChildren parent (others.insertIdx (min index others.length) id)).setParent id
    (some parent)

def remove (a : Arena) (parent id : NodeId) : Except Error Arena :=
  if (a.children parent).contains id then
    .ok ((a.setChildren parent ((a.children parent).erase id)).setParent id none)
  else .error (.notChild parent id)

def replace (a : Arena) (parent old new : NodeId) : Except Error Arena := do
  unless (a.children parent).contains old do
    .error (.notChild parent old)
  -- a node may take its own place, but only where it is a child
  if old = new then
    return a
  a.checkNoCycle parent new
  let a := a.detach new
  let swapped := (a.children parent).map fun c => if c = old then new else c
  return ((a.setChildren parent swapped).setParent old none).setParent new (some parent)

/-- Puts `new` in the place of `old`, wherever that stands. -/
def replaceInParent (a : Arena) (old new : NodeId) : Except Error Arena :=
  match a.parent? old with
  | some parent => a.replace parent old new
  | none => .error (.badArgument (.noParent old))

def copy (a : Arena) (id : NodeId) : Arena × NodeId := a.graft (a.tree id)

def setPos (a : Arena) (id : NodeId) (pos : Pos) : Arena :=
  a.setLabel id { a.label id with pos }

def placeAt (a : Arena) (id : NodeId) (pos : Pos) : Arena :=
  (a.preorder id).foldl (fun a n => a.setPos n pos) a

end VecLang.Arena
