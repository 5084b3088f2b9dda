import VecLang.Grammar.Number

/-!
# Expressions

One function per level of binding strength, from the tightest to the loosest. Each
takes the parser of a whole expression, for what stands in brackets, and the last
function, `expressionWithin`, ties the knot: its first argument bounds how deep the
brackets nest, and the length of the text is enough for it.

`a += b` reads as `a = a + b`, so a tree has plain assignments only.
-/

namespace VecLang.Grammar

/-- The parser of a whole expression, or of a part of one. -/
abbrev ExprParser := Cursor → Parse (Option (At Tree))

/-- The operators of each level, the loosest level first; of two operators with a
common start the longer comes first. -/
def levels : List (List Operator) :=
  [[.or], [.and], [.eq, .ne], [.le, .ge, .lt, .gt], [.add, .sub], [.mul, .div, .mod]]

/-- The assignments with the operation that each performs first. -/
def assignments : List (String × Option Operator) :=
  [("+=", some .add), ("-=", some .sub), ("*=", some .mul), ("/=", some .div), ("=", none)]

def prefixOp? (c : Cursor) : Option Operator :=
  if c.startsWithOp "-" then some .neg
  else if c.startsWithOp "!" then some .not
  else none

def arguments (env : Env) (inner : ExprParser) (c : Cursor) : Parse (At Tree) := do
  let (args, afterArgs) ← commaList inner (c.after "(")
  let afterClose ← afterArgs.expect ")"
  return (Tree.plain .args (env.pos c) args, afterClose)

/-- A literal, a name, a constructor call or an expression in parentheses. -/
def primary (env : Env) (inner : ExprParser) (c : Cursor) : Parse (Option (At Tree)) := do
  if let some afterOpen := c.symbol? "(" then
    let (t, afterInner) ← require "an expression" afterOpen (inner afterOpen)
    let afterClose ← afterInner.expect ")"
    return some (t, afterClose)
  match ← number? c with
  | some (v, afterNumber) =>
    let kind := match v with
      | .float _ => Kind.floatConst
      | _ => Kind.intConst
    return some (Tree.valued kind (env.pos c) v [], afterNumber)
  | none =>
    if let some afterTrue := c.keyword? "true" then
      return some (Tree.valued .boolConst (env.pos c) (.bool true) [], afterTrue)
    if let some afterFalse := c.keyword? "false" then
      return some (Tree.valued .boolConst (env.pos c) (.bool false) [], afterFalse)
    match c.name? with
    | none => return none
    | some (name, afterName) =>
      match env.types.get? name with
      | none => return some (Tree.valued .ident (env.pos c) (.name name) [], afterName)
      | some t =>
        if afterName.startsWith "(" then
          let (args, afterArgs) ← arguments env inner afterName
          let callee := Tree.valued .varType (env.pos c) (.type t) []
          return some (Tree.plain .call (env.pos c) [callee, args], afterArgs)
        else .error ⟨afterName, .expected "'(' after a type name"⟩

/-- What follows an operand: indices, members, and arguments where the operand is a
name. -/
def postfixRest (env : Env) (inner : ExprParser) : Nat → Tree → Cursor → Parse (At Tree)
  | 0, _, c => .error ⟨c, .tooDeep⟩
  | limit + 1, base, c =>
    match c.symbol? "[" with
    | some afterOpen => do
      let (index, afterIndex) ← require "an expression" afterOpen (inner afterOpen)
      let afterClose ← afterIndex.expect "]"
      postfixRest env inner limit (Tree.plain .index base.pos [base, index]) afterClose
    | none =>
      match c.symbol? "." with
      | some afterPoint =>
        match afterPoint.name? with
        | none => .error ⟨afterPoint, .expected "a member name"⟩
        | some (member, afterMember) =>
          let memberTree := Tree.valued .ident (env.pos afterPoint) (.name member) []
          postfixRest env inner limit (Tree.plain .member base.pos [base, memberTree]) afterMember
      | none =>
        if base.kind = .ident ∧ c.startsWith "(" then do
          let (args, afterArgs) ← arguments env inner c
          postfixRest env inner limit (Tree.plain .call base.pos [base, args]) afterArgs
        else .ok (base, c)

def postfixed (env : Env) (inner : ExprParser) (c : Cursor) : Parse (Option (At Tree)) := do
  match ← primary env inner c with
  | none => return none
  | some (base, c) => return some (← postfixRest env inner (c.rest.length + 1) base c)

/-- An operand behind any number of prefix operators, at most `limit`. -/
def unaryWithin (env : Env) (inner : ExprParser) : Nat → Cursor → Parse (Option (At Tree))
  | 0, c => .error ⟨c, .tooDeep⟩
  | limit + 1, c =>
    match prefixOp? c with
    | none => postfixed env inner c
    | some op => do
      let afterOp := c.after op.symbol
      match ← unaryWithin env inner limit afterOp with
      | none => .error ⟨afterOp, .unexpected⟩
      | some (operand, afterOperand) =>
        return some (Tree.operated .unary (env.pos c) op [operand], afterOperand)

def unary (env : Env) (inner : ExprParser) (c : Cursor) : Parse (Option (At Tree)) :=
  unaryWithin env inner (c.rest.length + 1) c

/-- Further operands of one level, grouped to the left. -/
def chain (operand : ExprParser) (ops : List Operator) : Nat → Tree → Cursor → Parse (At Tree)
  | 0, _, c => .error ⟨c, .tooDeep⟩
  | limit + 1, lhs, c =>
    match ops.find? (c.startsWithOp ·.symbol) with
    | none => .ok (lhs, c)
    | some op => do
      let afterOp := c.after op.symbol
      let (rhs, afterRhs) ← require "an operand" afterOp (operand afterOp)
      chain operand ops limit (Tree.operated .binary lhs.pos op [lhs, rhs]) afterRhs

/-- Binary operations of the given levels, over operands of what binds tighter. -/
def binary (operand : ExprParser) : List (List Operator) → Cursor → Parse (Option (At Tree))
  | [], c => operand c
  | ops :: tighter, c => do
    match ← binary operand tighter c with
    | none => return none
    | some (lhs, c) =>
      return some (← chain (binary operand tighter) ops (c.rest.length + 1) lhs c)

/-- A conditional expression, or just its condition. The alternatives behind the
last colon nest at most `limit` deep. -/
def ternaryWithin (operand inner : ExprParser) : Nat → Cursor → Parse (Option (At Tree))
  | 0, c => .error ⟨c, .tooDeep⟩
  | limit + 1, c => do
    match ← operand c with
    | none => return none
    | some (cond, c) =>
      match c.symbol? "?" with
      | none => return some (cond, c)
      | some afterMark =>
        let (yes, afterYes) ← require "an expression" afterMark (inner afterMark)
        let afterColon ← afterYes.expect ":"
        let (no, afterNo) ← require "an expression" afterColon
          (ternaryWithin operand inner limit afterColon)
        return some (Tree.plain .ternary cond.pos [cond, yes, no], afterNo)

def ternary (operand inner : ExprParser) (c : Cursor) : Parse (Option (At Tree)) :=
  ternaryWithin operand inner (c.rest.length + 1) c

/-- What an assignment stores: the value, or the operation on the target and the
value. -/
def assigned (pos : Pos) (op : Option Operator) (target value : Tree) : Tree :=
  match op with
  | some op => Tree.operated .binary pos op [target, value]
  | none => value

/-- An assignment, or just its target. Assignments group to the right. -/
def assignmentWithin (env : Env) (target : ExprParser) : Nat → Cursor → Parse (Option (At Tree))
  | 0, c => .error ⟨c, .tooDeep⟩
  | limit + 1, c => do
    match ← target c with
    | none => return none
    | some (lhs, c) =>
      match assignments.find? (c.startsWithOp ·.1) with
      | none => return some (lhs, c)
      | some (sym, op) =>
        let afterSym := c.after sym
        let (rhs, afterRhs) ← require "an expression" afterSym
          (assignmentWithin env target limit afterSym)
        let value := assigned (env.pos c) op lhs rhs
        return some (Tree.operated .assign lhs.pos .assign [lhs, value], afterRhs)

def assignment (env : Env) (target : ExprParser) (c : Cursor) : Parse (Option (At Tree)) :=
  assignmentWithin env target (c.rest.length + 1) c

def expressionOver (env : Env) (inner : ExprParser) : ExprParser :=
  assignment env (ternary (binary (unary env inner) levels) inner)

/-- A whole expression whose brackets nest at most `limit` deep. -/
def expressionWithin (env : Env) : Nat → ExprParser
  | 0, c => .error ⟨c, .tooDeep⟩
  | limit + 1, c => expressionOver env (expressionWithin env limit) c

def expression (env : Env) : ExprParser := fun c =>
  expressionWithin env (c.rest.length + 1) c

def requiredExpression (env : Env) (c : Cursor) : Parse (At Tree) :=
  require "an expression" c (expression env c)

end VecLang.Grammar
