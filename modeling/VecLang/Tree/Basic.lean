import VecLang.Tree.Rose
import VecLang.Source.Position
import VecLang.Operator
import VecLang.Ty

/-!
# Syntax trees

A syntax tree is a rose tree of labels. A label says what a node is (`Kind`),
what it carries (`Value`), and where it stands in the source. The children that a
node of each kind has are listed with the kind.
-/

namespace VecLang

inductive Kind where
  /-- Statements in order; a program is one too. -/
  | block
  /-- The return type, the parameters and the body; the value is the name. -/
  | function
  /-- The parameters of a function, each a `varDecl`. -/
  | params
  /-- The type and perhaps an initial value; the value is the name. -/
  | varDecl
  /-- No children; the value is the type. -/
  | varType
  /-- No children; the value is the name. -/
  | ident
  /-- No children; the value is an integer. -/
  | intConst
  /-- No children; the value is a binary64 number. -/
  | floatConst
  /-- No children; the value is a truth value. -/
  | boolConst
  /-- Two operands of the node's operator. -/
  | binary
  /-- The operand of the node's operator. -/
  | unary
  /-- The target and the value assigned to it. -/
  | assign
  /-- The condition and the two alternatives. -/
  | ternary
  /-- The base and the index. -/
  | index
  /-- The base and the member's name, an `ident`. -/
  | member
  /-- What is called, an `ident` or the `varType` of a constructor, and the arguments. -/
  | call
  | args
  /-- The condition, a block, and perhaps a block or a `conditional` for the other case. -/
  | conditional
  /-- Perhaps the value returned. -/
  | ret
  /-- A reference to a variable made by a pass: its type and perhaps the index of
  an element; the value is the name. -/
  | varRef
deriving DecidableEq, Repr

namespace Kind

/-- The name of a kind in dumps and messages. -/
def name : Kind → String
  | block => "StatementList"
  | function => "Function"
  | params => "ParamList"
  | varDecl => "VarDecl"
  | varType => "VarType"
  | ident => "Ident"
  | intConst => "IntConstant"
  | floatConst => "FloatConstant"
  | boolConst => "BoolConstant"
  | binary => "BinOp"
  | unary => "UnaryOp"
  | assign => "Assign"
  | ternary => "Trinary"
  | index => "ArrayLookup"
  | member => "BasicMemberLookup"
  | call => "Call"
  | args => "ExprList"
  | conditional => "If"
  | ret => "Return"
  | varRef => "VarRef"

def all : List Kind :=
  [block, function, params, varDecl, varType, ident, intConst, floatConst, boolConst, binary,
    unary, assign, ternary, index, member, call, args, conditional, ret, varRef]

end Kind

/-- How a top-level variable is bound to the world outside the program. -/
inductive Qualifier where
  | input
  | output
  | uniform
deriving DecidableEq, Repr

namespace Qualifier

def keyword : Qualifier → String
  | input => "in"
  | output => "out"
  | uniform => "uniform"

/-- All qualifiers, in the order in which their tables are searched. -/
def all : List Qualifier := [input, output, uniform]

end Qualifier

/-- What a node carries beside its children. -/
inductive Value where
  | int (n : Int)
  | float (x : Float)
  | bool (b : Bool)
  | name (s : String)
  | type (t : Ty)
deriving DecidableEq, Repr

/-- What a node of a syntax tree is, carries and where it stands. The operator
belongs to operations, the qualifier to the type of a top-level declaration. -/
structure Label where
  kind : Kind
  value : Option Value := none
  op : Option Operator := none
  qualifier : Option Qualifier := none
  pos : Pos := {}
deriving DecidableEq, Repr

instance : Inhabited Label := ⟨{ kind := .block }⟩

namespace Label

def name? (l : Label) : Option String :=
  match l.value with
  | some (.name s) => some s
  | _ => none

def type? (l : Label) : Option Ty :=
  match l.value with
  | some (.type t) => some t
  | _ => none

def unplaced (l : Label) : Label := { l with pos := {} }

end Label

abbrev Tree := Rose Label

namespace Tree

def valued (kind : Kind) (pos : Pos) (value : Value) (children : List Tree) : Tree :=
  .node { kind, pos, value := some value } children

def operated (kind : Kind) (pos : Pos) (op : Operator) (children : List Tree) : Tree :=
  .node { kind, pos, op := some op } children

/-- A node of one kind at `pos` that carries nothing. -/
def plain (kind : Kind) (pos : Pos) (children : List Tree) : Tree :=
  .node { kind, pos } children

/-- The tree with no positions: what remains of it apart from where it was written. -/
def unplaced (t : Tree) : Tree := t.map Label.unplaced

def kind (t : Tree) : Kind := t.entry.kind

def pos (t : Tree) : Pos := t.entry.pos

end Tree

end VecLang
