import VecLang.Arena.Basic
import VecLang.Context.Scope
import VecLang.Context.Types
import VecLang.Context.Overload
import VecLang.Context.Slot
import VecLang.Source.Excerpt

/-!
# The context of a compilation

What is known about one source text beside its tree: the types, the overloads, the
scopes, the slots, and the text itself for the excerpts in error messages.
-/

namespace VecLang

/-- The tables of one compilation and the texts that its errors quote. -/
structure Context where
  source : String
  filename : String
  /-- The text that positions refer to, once there is one. -/
  preprocessed : String := ""
  types : TypeTable := {}
  overloads : Overloads := {}
  scopes : ScopeStack := {}
  slots : Slots := {}
deriving DecidableEq, Repr

namespace Context

/-- Something that has a type. -/
inductive TypeRef where
  | type (t : Ty)
  | node (id : NodeId)
  | binding (name : String)
deriving Repr

def bindingType (ctx : Context) (name : String) : Except Error Ty :=
  match ctx.scopes.get? name with
  | some b => ctx.types.resolve b.type
  | none => .error (.undefinedSymbol name)

/-- The type of a node, looked for at most `limit` nodes down: its own for a type
node or an identifier that names one, that of its first child for a declaration,
and for a reference with an index that of an element. -/
def nodeTypeWithin (ctx : Context) (arena : Arena) : Nat → NodeId → Except Error Ty
  | 0, id => .error (.semantic (.nodeWithoutType id))
  | limit + 1, id =>
    match arena.kind id with
    | .varType =>
      match arena.type? id with
      | some t => ctx.types.resolve t
      | none => .error (.semantic (.nodeWithoutType id))
    | .ident =>
      match arena.name? id with
      | some name => ctx.types.resolve (.named name)
      | none => .error (.semantic (.nodeWithoutName id))
    | .varRef =>
      match arena.children id with
      | [] => .error (.semantic (.referenceWithoutType id))
      | [t] => nodeTypeWithin ctx arena limit t
      | t :: _ => do
        let t ← nodeTypeWithin ctx arena limit t
        match t.element? with
        | some elem => return elem
        | none => .error (.semantic (.notArrayType t))
    | .varDecl | .function =>
      match arena.children id with
      | [] => .error (.semantic (.nodeWithoutType id))
      | t :: _ => nodeTypeWithin ctx arena limit t
    | kind => .error (.semantic (.noTypeOfKind kind))

/-- The resolved type of a type, a node or a name in scope. -/
def typeOf (ctx : Context) (arena : Arena) : TypeRef → Except Error Ty
  | .type t => ctx.types.resolve t
  | .node id => ctx.nodeTypeWithin arena arena.size id
  | .binding name => ctx.bindingType name

/-- Whether two things have resolved types of one name. -/
def sameTypeOf (ctx : Context) (arena : Arena) (r s : TypeRef) : Except Error Bool := do
  let t ← ctx.typeOf arena r
  let u ← ctx.typeOf arena s
  return t.name == u.name

def addType (ctx : Context) (name : String) (t : Ty) : Context :=
  { ctx with types := ctx.types.insert name t }

/-- A type in a registration: the registration's own context type, a type by name,
or a type. -/
inductive TypeArg where
  | context
  | named (name : String)
  | type (t : Ty)
deriving Repr

/-- The empty name stands for the context type. -/
def TypeArg.ofName (name : String) : TypeArg :=
  if name.isEmpty then .context else .named name

def resolveArg (ctx : Context) (context : Option Ty) : TypeArg → Except Error Ty
  | .context =>
    match context with
    | some t => ctx.types.resolve t
    | none => .error (.badArgument .noContextType)
  | .named name => ctx.types.resolve (.named name)
  | .type t => ctx.types.resolve t

/-- Files an overload of `name` under its resolved types. -/
def addOverload (ctx : Context) (name : String) (ret : TypeArg) (args : List TypeArg)
    (context : Option Ty) : Except Error (Context × String) := do
  let ret ← ctx.resolveArg context ret
  let args ← args.mapM (ctx.resolveArg context)
  let (overloads, key) := ctx.overloads.register name ret args
  return ({ ctx with overloads }, key)

/-- The overload of `name` for arguments of the given types. -/
def findOverload? (ctx : Context) (name : String) (args : List Ty) :
    Except Error (Option Signature) := do
  let args ← args.mapM ctx.types.resolve
  return ctx.overloads.find? name (args.map Ty.name)

def pushScope (ctx : Context) : Context := { ctx with scopes := ctx.scopes.push }

def popScope (ctx : Context) : Except Error Context := do
  return { ctx with scopes := ← ctx.scopes.pop }

def bind (ctx : Context) (name : String) (b : Binding) : Context :=
  { ctx with scopes := ctx.scopes.bind name b }

def bindReturn (ctx : Context) (t : Ty) : Context := ctx.bind returnName { type := t }

/-- The declared return type of the function around, resolved. -/
def returnType (ctx : Context) : Except Error Ty := ctx.bindingType returnName

/-- One scope in which exactly the slots are bound. -/
def slotScopes (slots : Slots) : ScopeStack :=
  slots.all.foldl (fun s (name, slot) => s.bind name { type := slot.type, decl? := slot.decl }) {}

def resetScopes (ctx : Context) : Context := { ctx with scopes := slotScopes ctx.slots }

def declareSlot (ctx : Context) (q : Qualifier) (name : String) (slot : Slot) :
    Except Error Context := do
  return { ctx with slots := ← ctx.slots.declare q name slot }

def excerptLines : Nat := 5

/-- The text that the positions of errors refer to. -/
def quotedText (ctx : Context) : String :=
  if ctx.preprocessed.isEmpty then ctx.source else ctx.preprocessed

/-- The error with this file and an excerpt at `pos`, or at its own position. A
located error stays as it is. -/
def locate (ctx : Context) (pos : Option Pos) (error : Error) : Error :=
  if error.isLocated then error
  else
    let pos := pos.or error.pos?
    let excerpt :=
      match pos with
      | some p => Excerpt.around ctx.quotedText.toList p.line p.col excerptLines
      | none => []
    .located ctx.filename pos error (String.ofList excerpt)

def locateAt (ctx : Context) (arena : Arena) (id : NodeId) (error : Error) : Error :=
  ctx.locate (some (arena.pos id)) error

end Context

end VecLang
