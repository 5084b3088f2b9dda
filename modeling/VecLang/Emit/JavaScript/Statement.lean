import VecLang.Emit.JavaScript.Expression

/-!
# Statements in JavaScript

A local declaration becomes a `let`, unless it only says again what a slot or a
parameter already is; then nothing new is declared, and an initial value is assigned.
The scopes follow the blocks, so that each name is written for what it refers to at
its place.
-/

namespace VecLang.Emit.JavaScript

variable (ctx : Context) (arena : Arena) (options : Options)

/-- The tree below a node of the arena, for the text of an expression. -/
def labelled (t : Rose NodeId) : Tree := t.map arena.label

def terminator : Kind → String
  | .function => "\n\n"
  | .conditional | .block => "\n"
  | _ => ";\n"

/-- The line of a statement, and none for one without text. -/
def line (depth : Nat) (kind : Kind) (text : String) : String :=
  if text.isEmpty then "" else options.pad depth ++ text ++ terminator kind

def braces (depth : Nat) (lines : String) : String :=
  "\x7b\n" ++ lines ++ options.pad depth ++ "\x7d"

def isTopLevel (node : NodeId) : Bool := (arena.enclosing? node .function).isNone

/-- Whether a declaration only says again what a slot is: outside functions that holds
of every declaration of a slot's name, inside while the slot is visible and the types
agree. -/
def restatesSlot (scopes : ScopeStack) (node : NodeId) (name : String) (t : Ty) :
    Except Error Bool :=
  match ctx.slots.find? name with
  | none => .ok false
  | some slot =>
    if slot.decl = node ∨ isTopLevel arena node then .ok true
    else if (scopes.get? name).bind Binding.decl? = some slot.decl then
      ctx.types.sameType slot.type t
    else .ok false

/-- Whether a declaration only says again what a parameter of its own function is. -/
def restatesParameter (scopes : ScopeStack) (node : NodeId) (name : String) (t : Ty) :
    Except Error Bool :=
  match scopes.get? name with
  | none => .ok false
  | some b =>
    match b.decl?.bind arena.parent? with
    | none => .ok false
    | some params =>
      if arena.kind params = .params ∧ arena.parent? params = arena.enclosing? node .function then
        ctx.types.sameType b.type t
      else .ok false

/-- Whether the initial value of a declaration that restates a slot is assigned to it:
outside functions only that of a uniform is. -/
def assignsSlot (node : NodeId) (name : String) : Bool :=
  !isTopLevel arena node || ctx.slots.qualifier? name == some .uniform

def declaration (scopes : ScopeStack) (node : NodeId) (children : List (Rose NodeId)) :
    Except Error (String × ScopeStack) := do
  let l := arena.label node
  let name ← nameOf ctx l
  let t ← declaredType ctx l (children.head?.map fun c => arena.label c.entry)
  let init := children[1]?
  let value (t : Rose NodeId) := expression ctx options scopes (labelled arena t)
  if ← restatesSlot ctx arena scopes node name t then
    match init with
    | some init =>
      if assignsSlot ctx arena node name then
        return (identText ctx scopes name ++ " = " ++ (← value init), scopes)
      else return ("", scopes)
    | none => return ("", scopes)
  else if ← restatesParameter ctx arena scopes node name t then
    match init with
    | some init => return (name ++ " = " ++ (← value init), scopes)
    | none => return ("", scopes)
  else
    let text ←
      match init with
      | some init => value init
      | none => pure t.zeroText
    return ("let " ++ name ++ " = " ++ text,
      scopes.bind name { type := t, decl? := some node })

/-- The names of parameters, and the scopes in which they are bound. -/
def parameters (scopes : ScopeStack) : List (Rose NodeId) →
    Except Error (List String × ScopeStack)
  | [] => .ok ([], scopes)
  | .node param children :: rest => do
    let l := arena.label param
    let name ← nameOf ctx l
    let t ← declaredType ctx l (children.head?.map fun c => arena.label c.entry)
    let (names, scopes) ← parameters (scopes.bind name { type := t, decl? := some param }) rest
    return (name :: names, scopes)

/-- What a condition governs, in braces and in a scope of its own. -/
def branch (depth : Nat) (scopes : ScopeStack) (kind : Kind)
    (stmt : Nat → ScopeStack → Except Error (String × ScopeStack)) :
    Except Error (String × ScopeStack) :=
  if kind = .block then stmt depth scopes
  else do
    let (text, inner) ← stmt (depth + 1) scopes.push
    return (braces options depth (line options (depth + 1) kind text), ← inner.pop)

mutual

def statement (depth : Nat) (scopes : ScopeStack) :
    Rose NodeId → Except Error (String × ScopeStack)
  | .node id ts =>
    match arena.kind id, ts with
    | .function, ts => do
      let l := arena.label id
      let name ← nameOf ctx l
      match ts with
      | _ :: .node _ params :: .node _ statements :: _ =>
        let (names, inner) ← parameters ctx arena scopes.push params
        let (text, inner) ← lines (depth + 1) inner statements
        return ("function " ++ name ++ "(" ++ ", ".intercalate names ++ ") " ++
          braces options depth text, ← inner.pop)
      | _ => .error (malformed ctx l .incompleteFunction)
    | .varDecl, ts => declaration ctx arena options scopes id ts
    | .block, ts => do
      let (text, inner) ← lines (depth + 1) scopes.push ts
      return (braces options depth text, ← inner.pop)
    | .conditional, cond :: yes :: rest => do
      let condText ← expression ctx options scopes (labelled arena cond)
      let (yesText, scopes) ← branch options depth scopes (arena.kind yes.entry)
        (fun depth scopes => statement depth scopes yes)
      let head := "if (" ++ condText ++ ") " ++ yesText
      match rest with
      | [] => return (head, scopes)
      | no :: _ =>
        if arena.kind no.entry = .conditional then
          let (noText, scopes) ← statement (depth + 1) scopes no
          return (head ++ " else " ++
            braces options depth (options.pad (depth + 1) ++ noText ++ "\n"), scopes)
        else
          let (noText, scopes) ← branch options depth scopes (arena.kind no.entry)
            (fun depth scopes => statement depth scopes no)
          return (head ++ " else " ++ noText, scopes)
    | .conditional, _ => .error (malformed ctx (arena.label id) .incompleteConditional)
    | .ret, value :: _ =>
      return ("return " ++ (← expression ctx options scopes (labelled arena value)), scopes)
    | .ret, [] => .ok ("return", scopes)
    | _, ts => return (← expression ctx options scopes (labelled arena (.node id ts)), scopes)

def lines (depth : Nat) (scopes : ScopeStack) :
    List (Rose NodeId) → Except Error (String × ScopeStack)
  | [] => .ok ("", scopes)
  | t :: ts => do
    let (text, scopes) ← statement depth scopes t
    let (rest, scopes) ← lines depth scopes ts
    return (line options depth (arena.kind t.entry) text ++ rest, scopes)

end

end VecLang.Emit.JavaScript
