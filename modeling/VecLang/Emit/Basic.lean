import VecLang.Context.Basic
import VecLang.Decimal.Text

/-!
# What the emitters share

The options of an emission, the strength with which an expression binds, and the
reading of a node that an emitter expects to be complete. A tree that no source text
has may lack a child, a name or a type, and is then reported where it stands.
-/

namespace VecLang.Emit

/-- What a text is written with. The blanks of a line are taken to be as many as a machine word can
count and memory can hold, and the precision to be one that formatting takes, below `2 ^ 16`. -/
structure Options where
  /-- The number of blanks per level. -/
  indent : Nat := 2
  /-- The number of digits after the point of a float. -/
  floatPrecision : Nat := 7
  /-- Whether a script starts with the functions it uses. -/
  includePrelude : Bool := true
deriving DecidableEq, Repr

def Options.pad (o : Options) (depth : Nat) : String := "".pushn ' ' (o.indent * depth)

/-- The strength of what never needs parentheses. -/
def atomStrength : Nat := 11

/-- How strongly an expression holds together. A conditional expression is written in
parentheses of its own. -/
def strength (t : Tree) : Nat :=
  match t.kind with
  | .binary => (t.entry.op.map Operator.precedence).getD atomStrength
  | .assign => Operator.assign.precedence
  | .unary => Operator.neg.precedence
  | _ => atomStrength

inductive Side where
  | left
  | right
deriving DecidableEq, Repr

/-- Whether an operand needs parentheses: it binds more loosely than its operator, or
as loosely on the right of one that groups to the left. -/
def needsParens (op : Operator) (side : Side) (operand : Tree) : Bool :=
  let inner := strength operand
  inner < op.precedence || (side == .right && inner == op.precedence && !op.isRightAssoc)

def isCompound (t : Tree) : Bool := strength t < atomStrength

def parenthesized (parens : Bool) (text : String) : String :=
  if parens then "(" ++ text ++ ")" else text

def malformed (ctx : Context) (l : Label) (fault : SemanticFault) : Error :=
  ctx.locate (some l.pos) (.semantic fault)

def nameOf (ctx : Context) (l : Label) : Except Error String :=
  match l.name? with
  | some name => .ok name
  | none => .error (malformed ctx l (.missingName l.kind))

/-- The operator that a binary operation or an assignment must have. -/
def binaryOperator (ctx : Context) (l : Label) : Except Error Operator :=
  if l.kind = .assign then .ok .assign
  else
    match l.op with
    | some op => .ok op
    | none => .error (malformed ctx l .binaryWithoutOperator)

def unaryOperator (ctx : Context) (l : Label) : Except Error Operator :=
  match l.op with
  | some op => .ok op
  | none => .error (malformed ctx l .unaryWithoutOperator)

def constantText (ctx : Context) (options : Options) (l : Label) : Except Error String :=
  match l.value with
  | some (.int n) => .ok (toString n)
  | some (.float x) => .ok (Decimal.fixed options.floatPrecision x)
  | some (.bool b) => .ok (if b then "true" else "false")
  | _ => .error (malformed ctx l .constantWithoutValue)

/-- The type that a declaration or a function must have in its first child. -/
def declaredType (ctx : Context) (l : Label) (first : Option Label) : Except Error Ty :=
  match first.bind Label.type? with
  | some t => .ok t
  | none => .error (malformed ctx l .declarationWithoutType)

/-- The error of a node that has too few children for its kind. -/
def missingOperand {α : Type} (ctx : Context) (l : Label) (index : Nat) : Except Error α :=
  .error (malformed ctx l (.missingOperand l.kind index))

end VecLang.Emit
