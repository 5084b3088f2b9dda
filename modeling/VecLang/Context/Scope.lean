import VecLang.Error
import VecLang.Table

/-!
# Scopes

A scope stack keeps every visible binding in one flattened table, so that a
look-up is a single probe. Opening a scope saves the flattened table together with
the bindings of the scope around it; closing it brings both back.
-/

namespace VecLang

/-- What a name is bound to: a type, and the node that declares it if one does. -/
structure Binding where
  type : Ty
  decl? : Option NodeId := none
deriving DecidableEq, Repr

/-- The name under which a function's return type is bound. -/
def returnName : String := "$__return__$"

/-- The name bound to the type of the base inside a member access. -/
def thisName : String := "this"

/-- The visible bindings, those of the innermost scope, and both tables of each
scope around it. -/
structure ScopeStack where
  visible : Table Binding := {}
  innermost : Table Binding := {}
  saved : List (Table Binding × Table Binding) := []
deriving DecidableEq, Repr

namespace ScopeStack

def push (s : ScopeStack) : ScopeStack :=
  { s with innermost := {}, saved := (s.visible, s.innermost) :: s.saved }

def pop (s : ScopeStack) : Except Error ScopeStack :=
  match s.saved with
  | [] => .error (.semantic .scopeUnderflow)
  | (visible, innermost) :: saved => .ok { visible, innermost, saved }

def bind (s : ScopeStack) (name : String) (b : Binding) : ScopeStack :=
  { s with visible := s.visible.insert name b, innermost := s.innermost.insert name b }

def clear (_ : ScopeStack) : ScopeStack := {}

def get? (s : ScopeStack) (name : String) : Option Binding := s.visible.get? name

def contains (s : ScopeStack) (name : String) : Bool := s.visible.contains name

def isLocal (s : ScopeStack) (name : String) : Bool := s.innermost.contains name

def depth (s : ScopeStack) : Nat := s.saved.length

theorem pop_push (s : ScopeStack) : s.push.pop = .ok s := rfl

@[simp] theorem get?_bind (s : ScopeStack) (name other : String) (b : Binding) :
    (s.bind name b).get? other = if other = name then some b else s.get? other :=
  Table.get?_insert ..

@[simp] theorem depth_push (s : ScopeStack) : s.push.depth = s.depth + 1 := rfl

@[simp] theorem depth_bind (s : ScopeStack) (name : String) (b : Binding) :
    (s.bind name b).depth = s.depth := rfl

end ScopeStack

end VecLang
