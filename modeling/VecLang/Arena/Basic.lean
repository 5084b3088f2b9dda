import VecLang.Error
import VecLang.Decimal.Read

/-!
# The arena of nodes

An arena holds every node ever made, attached or not, by its id. A node lists its
children and knows its parent; the edits of `VecLang.Arena.Edit` keep the two in
step. The views of an arena are `label`, `children` and `parent?`. Ids that were
never given out have a default label, no children and no parent.

* `lineage`: a node and its ancestors, innermost first.
* `shape`: the subtree below a node as a rose tree of ids.
* `tree`: the same with the nodes' labels, a syntax tree.

A walk up or down meets each node at most once, so the number of nodes bounds it.
-/

namespace VecLang

structure Node where
  label : Label
  children : List NodeId := []
  parent? : Option NodeId := none
deriving DecidableEq, Repr

/-- All nodes, by id, and the root of the program among them. -/
structure Arena where
  nodes : Array Node := #[]
  root? : Option NodeId := none
deriving DecidableEq, Repr

namespace Arena

def size (a : Arena) : Nat := a.nodes.size

def label (a : Arena) (id : NodeId) : Label :=
  match a.nodes[id]? with
  | some n => n.label
  | none => default

def children (a : Arena) (id : NodeId) : List NodeId :=
  match a.nodes[id]? with
  | some n => n.children
  | none => []

/-- The node that lists `id` among its children. -/
def parent? (a : Arena) (id : NodeId) : Option NodeId :=
  match a.nodes[id]? with
  | some n => n.parent?
  | none => none

def kind (a : Arena) (id : NodeId) : Kind := (a.label id).kind

def name? (a : Arena) (id : NodeId) : Option String := (a.label id).name?

def type? (a : Arena) (id : NodeId) : Option Ty := (a.label id).type?

def op? (a : Arena) (id : NodeId) : Option Operator := (a.label id).op

def pos (a : Arena) (id : NodeId) : Pos := (a.label id).pos

def child? (a : Arena) (id : NodeId) (index : Nat) : Option NodeId := (a.children id)[index]?

def indexOf? (a : Arena) (parent child : NodeId) : Option Nat :=
  (a.children parent).findIdx? (· == child)

/-- The first `limit` nodes on the way up from `id`, itself first. -/
def lineageWithin (a : Arena) : Nat → NodeId → List NodeId
  | 0, _ => []
  | limit + 1, id =>
    id ::
      match a.parent? id with
      | some p => lineageWithin a limit p
      | none => []

def lineage (a : Arena) (id : NodeId) : List NodeId := a.lineageWithin a.size id

/-- Whether `ancestor` is `id` or lies above it. -/
def isAncestor (a : Arena) (ancestor id : NodeId) : Bool := (a.lineage id).contains ancestor

/-- The nearest node of a kind above `id`, itself not counted. -/
def enclosing? (a : Arena) (id : NodeId) (kind : Kind) : Option NodeId :=
  (a.lineage id).tail.find? (a.kind · == kind)

/-- The subtree below `id`, cut off after `limit` levels. -/
def shapeWithin (a : Arena) : Nat → NodeId → Rose NodeId
  | 0, id => .node id []
  | limit + 1, id => .node id ((a.children id).map (shapeWithin a limit))

def shape (a : Arena) (id : NodeId) : Rose NodeId := a.shapeWithin a.size id

def tree (a : Arena) (id : NodeId) : Tree := (a.shape id).map a.label

/-- The ids of the subtree below `id`, each node before its children. -/
def preorder (a : Arena) (id : NodeId) : List NodeId := (a.shape id).preorder

/-- The nodes of one kind in the subtree below `id`, cut off after `limit` levels. -/
def ofKindWithin (a : Arena) (kind : Kind) : Nat → NodeId → List NodeId
  | 0, id => if a.kind id = kind then [id] else []
  | limit + 1, id =>
    (if a.kind id = kind then [id] else []) ++ (a.children id).flatMap (ofKindWithin a kind limit)

/-- The nodes of one kind in the subtree below `id`, each node before those below it. -/
def ofKind (a : Arena) (id : NodeId) (kind : Kind) : List NodeId := a.ofKindWithin kind a.size id

end Arena

end VecLang
