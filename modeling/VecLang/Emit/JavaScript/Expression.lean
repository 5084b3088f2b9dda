import VecLang.Emit.Basic
import VecLang.Emit.Bindings

/-!
# Expressions in JavaScript

Outputs are no variables of a script: a name that refers to an output is written
`__outs[k]`, with the output's place `k`. All other names are written as they are.
-/

namespace VecLang.Emit.JavaScript

variable (ctx : Context) (options : Options) (scopes : ScopeStack)

/-- The place of the output that a name refers to, if what is visible under the name
is an output. -/
def outputPlace? (name : String) : Option Nat :=
  match ctx.slots.outputs.get? name, scopes.get? name with
  | some slot, some b =>
    if b.decl? = some slot.decl then (Bindings.ofSlots ctx.slots).place? name else none
  | _, _ => none

def identText (name : String) : String :=
  match outputPlace? ctx scopes name with
  | some k => "__outs[" ++ toString k ++ "]"
  | none => name

mutual

def expression : Tree → Except Error String
  | .node l ts =>
    match l.kind, ts with
    | .intConst, _ | .floatConst, _ | .boolConst, _ => constantText ctx options l
    | .ident, _ => return identText ctx scopes (← nameOf ctx l)
    | .varRef, ts => do
      let name := identText ctx scopes (← nameOf ctx l)
      match ts with
      | _ :: index :: _ => return name ++ "[" ++ (← expression index) ++ "]"
      | _ => return name
    | .binary, ts | .assign, ts => do
      let op ← binaryOperator ctx l
      match ts with
      | lhs :: rhs :: _ =>
        let left := parenthesized (needsParens op .left lhs) (← expression lhs)
        if op = .member ∧ rhs.entry.kind = .ident then
          return left ++ "." ++ (← nameOf ctx rhs.entry)
        else
          let right := parenthesized (needsParens op .right rhs) (← expression rhs)
          let between := if op = .member then "." else " " ++ op.symbol ++ " "
          return left ++ between ++ right
      | ts => missingOperand ctx l ts.length
    | .unary, ts => do
      let op ← unaryOperator ctx l
      match ts with
      | operand :: _ =>
        return op.symbol ++ parenthesized (isCompound operand) (← expression operand)
      | [] => missingOperand ctx l 0
    | .ternary, cond :: yes :: no :: _ => do
      let cond ← expression cond
      let yes ← expression yes
      let no ← expression no
      return "((" ++ cond ++ ") ? (" ++ yes ++ ") : (" ++ no ++ "))"
    | .ternary, ts => missingOperand ctx l ts.length
    | .index, base :: index :: _ => do
      let text ← expression base
      let index ← expression index
      return parenthesized (isCompound base) text ++ "[" ++ index ++ "]"
    | .index, ts => missingOperand ctx l ts.length
    | .member, base :: member :: _ => do
      let text ← expression base
      let name ← nameOf ctx member.entry
      return parenthesized (isCompound base) text ++ "." ++ name
    | .member, ts => missingOperand ctx l ts.length
    | .call, callee :: rest => do
      let name ←
        match callee.entry.kind, callee.entry.type? with
        | .varType, some t => pure t.name
        | .ident, _ => nameOf ctx callee.entry
        | _, _ => pure (parenthesized (isCompound callee) (← expression callee))
      match rest with
      | args :: _ => return name ++ "(" ++ (← expression args) ++ ")"
      | [] => return name ++ "()"
    | .call, [] => missingOperand ctx l 0
    | .args, ts => arguments ts
    | kind, _ => .error (malformed ctx l (.notExpression kind))

def arguments : List Tree → Except Error String
  | [] => .ok ""
  | [t] => expression t
  | t :: ts => do
    let text ← expression t
    let rest ← arguments ts
    return text ++ ", " ++ rest

end

end VecLang.Emit.JavaScript
