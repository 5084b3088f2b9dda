import VecLang.Emit.Basic

/-!
# Trees as source text

Prints a tree in the language itself, with its qualifiers and declared types, one
statement a line. It shows what the passes have made of a program.
-/

namespace VecLang.Emit.Source

variable (ctx : Context) (options : Options)

/-- The parts of a declared type before and after the name: `float w[4]` has the
length behind the name. -/
def declarator : Ty → String × String
  | .array elem size none => (elem.name, "[" ++ toString size ++ "]")
  | .unsized elem none => (elem.name, "[]")
  | t => (t.name, "")

def terminator : Kind → String
  | .function | .conditional | .block => "\n"
  | _ => ";\n"

def braces (depth : Nat) (lines : String) : String :=
  "\x7b\n" ++ lines ++ options.pad depth ++ "\x7d"

def line (depth : Nat) (kind : Kind) (text : String) : String :=
  options.pad depth ++ text ++ terminator kind

/-- The lines of what a function or a condition governs, from its own text. -/
def body (depth : Nat) (kind : Kind) (text : String) : String :=
  if kind = .block then text else line options depth kind text

mutual

/-- The text of a node at `depth`. That of a block is the lines of its statements. -/
def emit (depth : Nat) : Tree → Except Error String
  | .node l ts =>
    match l.kind, ts with
    | .block, ts => emitLines depth ts
    | .function, ts => do
      let ret ← declaredType ctx l (ts.head?.map Rose.entry)
      let name ← nameOf ctx l
      match ts with
      | _ :: params :: statements :: _ =>
        let params ← emit depth params
        let lines ← emit (depth + 1) statements
        return ret.name ++ " " ++ name ++ "(" ++ params ++ ") " ++
          braces options depth (body options (depth + 1) statements.entry.kind lines)
      | [_, params] =>
        let _ ← emit depth params
        missingOperand ctx l 2
      | _ => missingOperand ctx l 2
    | .params, ts | .args, ts => emitList depth ts
    | .varDecl, ts => do
      let first := ts.head?.map Rose.entry
      let t ← declaredType ctx l first
      let name ← nameOf ctx l
      let qualifier :=
        match first.bind Label.qualifier with
        | some q => q.keyword ++ " "
        | none => ""
      let (base, suffix) := declarator t
      let head := qualifier ++ base ++ " " ++ name ++ suffix
      match ts with
      | _ :: init :: _ => return head ++ " = " ++ (← emit depth init)
      | _ => return head
    | .varType, _ =>
      match l.type? with
      | some t => .ok t.name
      | none => .error (malformed ctx l .typeWithoutType)
    | .ident, _ => nameOf ctx l
    | .varRef, ts => do
      let name ← nameOf ctx l
      match ts with
      | _ :: index :: _ => return name ++ "[" ++ (← emit depth index) ++ "]"
      | _ => return name
    | .intConst, _ | .floatConst, _ | .boolConst, _ => constantText ctx options l
    | .binary, ts | .assign, ts => do
      let op ← binaryOperator ctx l
      match ts with
      | lhs :: rhs :: _ =>
        let left ← emit depth lhs
        let right ← emit depth rhs
        let between := if op = .member then "." else " " ++ op.symbol ++ " "
        return parenthesized (needsParens op .left lhs) left ++ between ++
          parenthesized (needsParens op .right rhs) right
      | ts => missingOperand ctx l ts.length
    | .unary, ts => do
      let op ← unaryOperator ctx l
      match ts with
      | operand :: _ =>
        return op.symbol ++ parenthesized (isCompound operand) (← emit depth operand)
      | [] => missingOperand ctx l 0
    | .ternary, cond :: yes :: no :: _ => do
      let cond ← emit depth cond
      let yes ← emit depth yes
      let no ← emit depth no
      return "(" ++ cond ++ " ? " ++ yes ++ " : " ++ no ++ ")"
    | .ternary, ts => missingOperand ctx l ts.length
    | .index, base :: index :: _ => do
      let text ← emit depth base
      let index ← emit depth index
      return parenthesized (isCompound base) text ++ "[" ++ index ++ "]"
    | .index, ts => missingOperand ctx l ts.length
    | .member, base :: member :: _ => do
      let text ← emit depth base
      let member ← emit depth member
      return parenthesized (isCompound base) text ++ "." ++ member
    | .member, ts => missingOperand ctx l ts.length
    | .call, callee :: args :: _ => do
      let callee ← emit depth callee
      let args ← emit depth args
      return callee ++ "(" ++ args ++ ")"
    | .call, [callee] => return (← emit depth callee) ++ "()"
    | .call, [] => missingOperand ctx l 0
    | .conditional, cond :: yes :: rest => do
      let condText ← emit depth cond
      let yesText ← emit (depth + 1) yes
      let head := "if (" ++ condText ++ ") " ++
        braces options depth (body options (depth + 1) yes.entry.kind yesText)
      match rest with
      | [] => return head
      | no :: _ =>
        -- an `else if` goes on in the line of its `else`
        if no.entry.kind = .conditional then
          return head ++ " else " ++ (← emit depth no)
        else
          let noText ← emit (depth + 1) no
          return head ++ " else " ++
            braces options depth (body options (depth + 1) no.entry.kind noText)
    | .conditional, ts => missingOperand ctx l ts.length
    | .ret, value :: _ => return "return " ++ (← emit depth value)
    | .ret, [] => .ok "return"

/-- The lines of statements at `depth`; a block among them stands in braces. -/
def emitLines (depth : Nat) : List Tree → Except Error String
  | [] => .ok ""
  | t :: ts => do
    let text ←
      if t.entry.kind = .block then
        pure (braces options depth (← emit (depth + 1) t))
      else emit depth t
    let rest ← emitLines depth ts
    return line options depth t.entry.kind text ++ rest

/-- The texts of parameters or arguments with commas between them. -/
def emitList (depth : Nat) : List Tree → Except Error String
  | [] => .ok ""
  | [t] => emit depth t
  | t :: ts => do
    let text ← emit depth t
    let rest ← emitList depth ts
    return text ++ ", " ++ rest

end

end VecLang.Emit.Source
