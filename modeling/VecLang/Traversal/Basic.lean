import VecLang.Arena.Edit

/-!
# Traversals

A traversal hands nodes to a handler, which may edit the tree and decides itself how
to go on below a node. Each node is handled once, however often the handler asks for
it, unless the handler has it forgotten.

* `enter`: hand a node to the handler, unless it was handled before.
* `descend`: go on below a node. If the node was not handled yet it is entered;
  otherwise its children are, each only if it still belongs to the node.
* `Plan`: what a handler does with a node, as a list of requests. The set of handled
  nodes can be changed by requests only.

A computation of a traversal keeps what it did before it failed.
-/

namespace VecLang.Traversal

/-- What a traversal works on: the tree, the nodes handled so far, and the handler's
own memory. -/
structure World (ω : Type) where
  arena : Arena
  visited : List NodeId
  memory : ω

variable {σ ω : Type}

/-- Hands a node to a handler, with the state that belongs to the node. -/
abbrev Enter (σ ω : Type) := NodeId → σ → Steps (World ω) Unit

/-- Handles a node, given the way to enter others. -/
abbrev Handler (σ ω : Type) := Enter σ ω → Enter σ ω

/-- Enters those of the given nodes that are still children of `parent`. -/
def enterChildren (enter : Enter σ ω) (parent : NodeId) (state : σ) :
    List NodeId → Steps (World ω) Unit
  | [] => pure ()
  | child :: rest => do
    if (← get).arena.parent? child = some parent then
      enter child state
    enterChildren enter parent state rest

/-- Goes on below a node that was handled, and enters one that was not. -/
def descend (enter : Enter σ ω) (node : NodeId) (state : σ) : Steps (World ω) Unit := do
  let w ← get
  if w.visited.contains node then
    enterChildren enter node state (w.arena.children node)
  else
    enter node state

def markVisited (node : NodeId) : Steps (World ω) Unit :=
  modify fun w => { w with visited := node :: w.visited }

def release (node : NodeId) : Steps (World ω) Unit :=
  modify fun w => { w with visited := w.visited.filter (· != node) }

/-- Hands a node to the handler unless it was handled before. Nodes are entered
inside one another at most `limit` deep. -/
def enterWithin (handle : Handler σ ω) : Nat → Enter σ ω
  | 0, _, _ => throw (.semantic .tooDeep)
  | limit + 1, node, state => do
    unless (← get).visited.contains node do
      markVisited node
      handle (enterWithin handle limit) node state

/-- What a handler does with a node, request by request. -/
inductive Plan (σ ω : Type) where
  | done
  | fail (error : Error)
  /-- Change the tree and the memory. -/
  | act (change : Arena → ω → Except Error (Arena × ω)) (next : Plan σ ω)
  /-- Go on as the tree, the handled nodes and the memory tell. -/
  | ask (next : Arena → (NodeId → Bool) → ω → Plan σ ω)
  /-- Go on below a node, with a state. The handler is told the error of that, if there is
  one, and may carry on. -/
  | descendThen (node : NodeId) (state : σ) (next : Option Error → Plan σ ω)
  /-- Put `new` in the place of `old` and forget `old`, which may fail as well. -/
  | spliceThen (old new : NodeId) (next : Option Error → Plan σ ω)
  | release (node : NodeId) (next : Plan σ ω)

/-- Changes the tree and the memory of a traversal, or fails and changes neither. -/
def change (f : Arena → ω → Except Error (Arena × ω)) : Steps (World ω) Unit := do
  let w ← get
  match f w.arena w.memory with
  | .ok (arena, memory) => set { w with arena, memory }
  | .error e => throw e

/-- Carries on behind a computation, whether it has failed or not. -/
def attempt (x : Steps (World ω) Unit) (next : Option Error → Steps (World ω) Unit) :
    Steps (World ω) Unit := fun w =>
  match x w with
  | .ok () w => next none w
  | .error e w => next (some e) w

def Plan.run (enter : Enter σ ω) : Plan σ ω → Steps (World ω) Unit
  | done => pure ()
  | fail e => throw e
  | act f next => do
    change f
    next.run enter
  | ask next => do
    let w ← get
    (next w.arena (w.visited.contains ·) w.memory).run enter
  | descendThen node state next =>
    attempt (Traversal.descend enter node state) fun failure => (next failure).run enter
  | spliceThen old new next =>
    attempt (do
      change fun a m => return (← a.replaceInParent old new, m)
      Traversal.release old) fun failure => (next failure).run enter
  | release node next => do
    Traversal.release node
    next.run enter

/-- What follows a request that may fail, where an error is passed on. -/
def Plan.orFail (next : Plan σ ω) : Option Error → Plan σ ω
  | none => next
  | some e => fail e

def Plan.descend (node : NodeId) (state : σ) (next : Plan σ ω) : Plan σ ω :=
  descendThen node state next.orFail

theorem Plan.run_descend (enter : Enter σ ω) (node : NodeId) (state : σ) (next : Plan σ ω) :
    (descend node state next).run enter = (do
      Traversal.descend enter node state
      next.run enter) := by
  funext w
  change attempt _ _ w = EStateM.bind _ _ w
  unfold attempt EStateM.bind
  cases Traversal.descend enter node state w <;> rfl

def Plan.splice (old new : NodeId) (next : Plan σ ω) : Plan σ ω := spliceThen old new next.orFail

/-- The handler that carries out a plan for each node and state. -/
def planned (plan : NodeId → σ → Plan σ ω) : Handler σ ω :=
  fun enter node state => (plan node state).run enter

def traverse (limit : Nat) (plan : NodeId → σ → Plan σ ω) (root : NodeId) (state : σ) :
    Steps (World ω) Unit :=
  enterWithin (planned plan) limit root state

/-- Shows a node to `look` and then what is below it, cut off after `limit` levels. -/
def walkWithin {μ : Type} (arena : Arena) (look : NodeId → Steps μ Unit) :
    Nat → NodeId → Steps μ Unit
  | 0, node => look node
  | limit + 1, node => do
    look node
    (arena.children node).forM (walkWithin arena look limit)

/-- Shows each node of a subtree to `look`, a node before its children. -/
def walk {μ : Type} (arena : Arena) (root : NodeId) (look : NodeId → Steps μ Unit) :
    Steps μ Unit :=
  walkWithin arena look arena.size root

end VecLang.Traversal
