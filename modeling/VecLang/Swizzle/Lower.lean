import VecLang.Swizzle.Axis
import VecLang.Traversal.ScopeWalk
import VecLang.Grammar.Parse
import VecLang.Context.Builtin

/-!
# Lowering swizzles

Reading `v.x` becomes `v[0]` and reading `v.yx` becomes `vec2(v[1], v[0])`. Writing
`v.xy = e;` becomes one assignment per component in the place of the statement. Only
a base that is an array is lowered; a base that is no name is taken for one.

The trees of a swizzle come from its texts, parsed as a snippet, with operands put in
the place of the placeholders: the operand itself for the first and copies for the
others. Reads are lowered everywhere before the writes are, since a target is no
longer a read once its assignment is split.

The assignments run in order. If the value reads the target, as in `p.xy = p.yx`, a
later one sees what an earlier one has written.
-/

namespace VecLang.Swizzle

open ScopeWalk

/-- What the hooks of the lowering work on: they keep no notes. -/
abbrev Lowering := Steps (View Unit)

def edit {α : Type} (f : Arena → Except Error (Arena × α)) : Lowering α := do
  let v ← get
  match f v.arena with
  | .ok (arena, a) =>
    set { v with arena }
    return a
  | .error e => throw e

def perform (f : Arena → Except Error Arena) : Lowering Unit :=
  edit fun a => return (← f a, ())

def addNode (l : Label) : Lowering NodeId := edit fun a => .ok (a.add l)

/-- Parses a text as a snippet and puts its nodes at `pos`. -/
def parseSnippet (p : Grammar.Production) (text : String) (pos : Pos) : Lowering NodeId := do
  let snippet := (← get).context.snippet text "(swizzle)"
  let id ← edit fun a => snippet.parse a p text
  perform fun a => .ok (a.placeAt id pos)
  return id

/-- Puts `operand` in the place of each of the given nodes, copies of it for all but
the first. -/
def fillSites (operand : NodeId) : List NodeId → Lowering Unit
  | [] => pure ()
  | site :: rest => do
    perform fun a => a.replaceInParent site operand
    rest.forM fun site => do
      let copied ← edit fun a => .ok (a.copy operand)
      perform fun a => a.replaceInParent site copied

/-- Puts `operand` in the place of every name `placeholder` below `root`. -/
def substitute (root : NodeId) (placeholder : String) (operand : NodeId) : Lowering Unit := do
  let a := (← get).arena
  fillSites operand ((a.ofKind root .ident).filter (a.name? · == some placeholder))

def memberName? (a : Arena) (access : NodeId) : Option String :=
  match a.child? access 1 with
  | some member => if a.kind member = .ident then a.name? member else none
  | none => none

/-- The base of a member access if it is an array. The type of a base that is a name
is that of `nameOf` the name; any other base is taken for an array. -/
def arrayBase? (v : View Unit) (access : NodeId) (nameOf : String → String) :
    Except Error (Option NodeId) :=
  match v.arena.child? access 0 with
  | none => .ok none
  | some base =>
    if v.arena.kind base = .ident then do
      let name := nameOf ((v.arena.name? base).getD "")
      let t ← (v.context.bindingType name).mapError (v.context.locateAt v.arena access)
      return if t.isArray then some base else none
    else .ok (some base)

def isTarget (a : Arena) (node : NodeId) : Bool :=
  match a.parent? node with
  | some parent => a.kind parent == .assign && a.child? parent 0 == some node
  | none => false

/-- The arguments of a call of the vector constructor with one argument for each of
`width` components. -/
def constructorArgs? (a : Arena) (width : Nat) (value : NodeId) : Option (List NodeId) :=
  if a.kind value = .call then
    match (a.child? value 0).bind a.type?, a.child? value 1 with
    | some t, some args =>
      if t.name = "vec" ++ toString width ∧ (a.children args).length = width then
        some (a.children args)
      else none
    | _, _ => none
  else none

def lowerAxis (node base : NodeId) (pos : Pos) (index : Nat) : Lowering Flow := do
  let lookup ← addNode { kind := .index, pos }
  perform fun a => a.replaceInParent node lookup
  perform fun a => a.pushNode lookup base
  let _ ← edit fun a => a.push lookup (.ofInt index)
  return .replaced [lookup]

def lowerSwizzleRead (node base : NodeId) (pos : Pos) (s : Swizzle) : Lowering Flow := do
  let call ← parseSnippet .expression s.readText pos
  substitute call "$n1" base
  perform fun a => a.replaceInParent node call
  return .replaced [call]

/-- Lowers a member access that reads components of an array. A swizzle that is
assigned to is left for the writes. -/
def lowerRead (node : NodeId) : Lowering Flow := do
  let v ← get
  match memberName? v.arena node with
  | none => return .descend
  | some member =>
    match arrayBase? v node (fun _ => thisName) with
    | .error e => throw e
    | .ok none => return .descend
    | .ok (some base) =>
      let pos := v.arena.pos node
      match axis? member, ofMember? member with
      | some index, _ => lowerAxis node base pos index
      | none, some s =>
        if isTarget v.arena node then return .descend else lowerSwizzleRead node base pos s
      | none, none => return .descend

/-- The assignments of a value to the components of `base`, as a block. -/
def writeStatements (base value : NodeId) (pos : Pos) (s : Swizzle) : Lowering NodeId := do
  match constructorArgs? (← get).arena s.width value with
  | some args =>
    let block ← parseSnippet .statements s.unpackedWriteText pos
    (args.zipIdx).forM fun (arg, k) => substitute block (argument k) arg
    substitute block "$n1" base
    return block
  | none =>
    let block ← parseSnippet .statements s.writeText pos
    substitute block "$n2" value
    substitute block "$n1" base
    return block

def insertAll (list : NodeId) : Nat → List NodeId → Lowering Unit
  | _, [] => pure ()
  | index, node :: rest => do
    perform fun a => a.insert list index node
    insertAll list (index + 1) rest

def splitAssignment (list node base value : NodeId) (s : Swizzle) : Lowering Flow := do
  let pos := (← get).arena.pos node
  let block ← writeStatements base value pos s
  match (← get).arena.indexOf? list node with
  | none => throw (.notChild list node)
  | some index =>
    perform fun a => a.remove list node
    let parts := (← get).arena.children block
    insertAll list index parts
    return .replaced parts

/-- Lowers an assignment to a swizzle of an array, which must be a statement. -/
def lowerWrite (node : NodeId) : Lowering Flow := do
  let v ← get
  let a := v.arena
  match a.child? node 0, a.child? node 1 with
  | some target, some value =>
    if a.kind target = .member then
      match memberName? a target with
      | none => return .descend
      | some member =>
        match ofMember? member with
        | none => return .descend
        | some s =>
          match arrayBase? v target id with
          | .error e => throw e
          | .ok none => return .descend
          | .ok (some base) =>
            match a.parent? node with
            | some list =>
              if a.kind list = .block then splitAssignment list node base value s
              else throw (v.context.locateAt a node (.semantic (.swizzleNotStatement member)))
            | none => throw (v.context.locateAt a node (.semantic (.swizzleNotStatement member)))
    else return .descend
  | _, _ => return .descend

def readHook : Hook Unit := fun node => do
  if (← get).arena.kind node = .member then lowerRead node else return .descend

def writeHook : Hook Unit := fun node => do
  if (← get).arena.kind node = .assign then lowerWrite node else return .descend

/-- More than the depth of any tree that lowering makes: a swizzle is replaced by at
most three nodes above its operand, and an operand by one of the tree's own. -/
def depthLimit (a : Arena) : Nat := 8 * ((a.size + 2) * (a.size + 2))

def lowerWith (hook : Hook Unit) (root : NodeId) : Lowering Unit := do
  walkScopes (depthLimit (← get).arena) hook root

/-- Lowers every swizzle of the program. The scopes are those of the slots before each
walk. -/
def lower : Lowering Unit := do
  match (← get).arena.root? with
  | none => pure ()
  | some root =>
    lowerWith readHook root
    modify fun v => { v with context := v.context.resetScopes }
    lowerWith writeHook root

end VecLang.Swizzle
