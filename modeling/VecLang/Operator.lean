/-!
# Operators

The operators of the language with their symbols and binding strengths. The
symbol of a unary minus is that of the binary one.
-/

namespace VecLang

/-- An operator of a binary, unary or assignment expression, or of a member access. -/
inductive Operator where
  | assign
  | or
  | and
  | eq
  | ne
  | lt
  | gt
  | le
  | ge
  | add
  | sub
  | mul
  | div
  | mod
  | member
  | neg
  | not
deriving DecidableEq, Repr

namespace Operator

def symbol : Operator → String
  | assign => "="
  | or => "||"
  | and => "&&"
  | eq => "=="
  | ne => "!="
  | lt => "<"
  | gt => ">"
  | le => "<="
  | ge => ">="
  | add => "+"
  | sub => "-"
  | mul => "*"
  | div => "/"
  | mod => "%"
  | member => "."
  | neg => "-"
  | not => "!"

/-- Binding strength: the greater number binds tighter. Strength 2 is that of the
conditional expression, which has no operator of its own. -/
def precedence : Operator → Nat
  | assign => 1
  | or => 3
  | and => 4
  | eq | ne => 5
  | lt | gt | le | ge => 6
  | add | sub => 7
  | mul | div | mod => 8
  | neg | not => 9
  | member => 10

def isRightAssoc : Operator → Bool
  | assign | neg | not => true
  | _ => false

/-- The operators that stand between two operands. -/
def binary : List Operator :=
  [assign, or, and, eq, ne, lt, gt, le, ge, add, sub, mul, div, mod, member]

/-- The operator between two operands that is written `symbol`. -/
def ofBinarySymbol? (symbol : String) : Option Operator :=
  binary.find? (·.symbol == symbol)

end Operator

end VecLang
