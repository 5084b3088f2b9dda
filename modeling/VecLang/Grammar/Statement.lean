import VecLang.Grammar.Expression

/-!
# Statements and programs

Blocks, conditionals and declarations. As for expressions, the parser of a statement
is passed to the productions that hold statements, and `statementWithin` ties the
knot by how deep the statements nest.

A statement that does nothing, a lone `;`, leaves no trace in the tree.
-/

namespace VecLang.Grammar

/-- The parser of a statement, which may be empty. -/
abbrev StmtParser := Cursor → Parse (At (Option Tree))

def typeName? (env : Env) (c : Cursor) : Option (Ty × Cursor) :=
  match c.name? with
  | none => none
  | some (name, afterName) => (env.types.get? name).map (·, afterName)

/-- Fails if two names stand next and the first, where a type belongs, is none. -/
def rejectUnknownType (env : Env) (c : Cursor) : Except Failure Unit :=
  match c.name? with
  | none => .ok ()
  | some (name, afterName) =>
    if !env.types.contains name && afterName.name?.isSome then
      .error ⟨c, .unknownType name⟩
    else .ok ()

def maxSize : Nat := Nat.pow 2 64 - 1

/-- The type of a name with the brackets that may follow the name. -/
def arraySuffix (t : Ty) (c : Cursor) : Parse (At Ty) :=
  match c.symbol? "[" with
  | none => .ok (t, c)
  | some afterOpen => do
    let digits := afterOpen.rest.takeWhile Char.isDigit
    let size := Decimal.digitsValue digits
    if digits.isEmpty || size > maxSize then
      return (.unsized t none, ← afterOpen.expect "]")
    else
      let afterSize := (afterOpen.advance digits.length).skipBlanks
      return (.array t size none, ← afterSize.expect "]")

def qualifier? (c : Cursor) : Option (Qualifier × Cursor) :=
  Qualifier.all.findSome? fun q => (c.keyword? q.keyword).map (q, ·)

/-- What follows the name of a declared variable, up to the semicolon. The type node
stands where the declaration starts, and the declaration where the name does. -/
def declarationRest (env : Env) (start nameAt : Cursor) (q : Option Qualifier) (t : Ty)
    (name : String) (c : Cursor) : Parse (At Tree) := do
  let (t, c) ← arraySuffix t c
  let typeTree : Tree :=
    .node { kind := .varType, value := some (.type t), qualifier := q, pos := env.pos start } []
  let (init, c) ←
    match c.symbol? "=" with
    | none => pure ([], c)
    | some afterEq =>
      if afterEq.startsWith "=" then pure ([], c)
      else do
        let (t, c) ← requiredExpression env afterEq
        pure ([t], c)
  let c ← c.expect ";"
  return (Tree.valued .varDecl (env.pos nameAt) (.name name) (typeTree :: init), c)

def blockRest (stmt : StmtParser) : Nat → Cursor → Parse (At (List Tree))
  | 0, c => .error ⟨c, .tooDeep⟩
  | limit + 1, c =>
    match c.symbol? "\x7d" with
    | some afterClose => .ok ([], afterClose)
    | none =>
      if c.atEnd then .error ⟨c, .expected "'\x7d'"⟩
      else do
        let (s, c) ← stmt c
        let (rest, c) ← blockRest stmt limit c
        return (s.toList ++ rest, c)

def block (env : Env) (stmt : StmtParser) (c : Cursor) : Parse (At Tree) := do
  let (statements, afterBlock) ← blockRest stmt (c.rest.length + 1) (c.after "\x7b")
  return (Tree.plain .block (env.pos c) statements, afterBlock)

/-- What a condition governs: a block, also where it is written without braces. -/
def branch (env : Env) (stmt : StmtParser) (c : Cursor) : Parse (At Tree) :=
  if c.startsWith "\x7b" then block env stmt c
  else if c.atEnd then .error ⟨c, .expected "a statement"⟩
  else do
    let (s, afterStatement) ← stmt c
    return (Tree.plain .block (env.pos c) s.toList, afterStatement)

/-- A conditional after its `if`, which stood at `start`. -/
def conditionalRest (env : Env) (stmt : StmtParser) : Nat → Cursor → Cursor → Parse (At Tree)
  | 0, _, c => .error ⟨c, .tooDeep⟩
  | limit + 1, start, c => do
    let c ← c.expect "("
    let (cond, c) ← requiredExpression env c
    let c ← c.expect ")"
    let (yes, c) ← branch env stmt c
    match c.keyword? "else" with
    | none => return (Tree.plain .conditional (env.pos start) [cond, yes], c)
    | some afterElse =>
      let (no, c) ←
        match afterElse.keyword? "if" with
        | some afterIf => conditionalRest env stmt limit afterElse afterIf
        | none => branch env stmt afterElse
      return (Tree.plain .conditional (env.pos start) [cond, yes, no], c)

def expressionStatement (env : Env) (c : Cursor) : Parse (At (Option Tree)) := do
  let (t, c) ← requiredExpression env c
  let c ← c.expect ";"
  return (some t, c)

/-- A declaration or an expression. A type name that no name follows starts an
expression, a constructor call. -/
def simpleStatement (env : Env) (c : Cursor) : Parse (At (Option Tree)) := do
  rejectUnknownType env c
  match typeName? env c with
  | none => expressionStatement env c
  | some (t, nameAt) =>
    match nameAt.name? with
    | none => expressionStatement env c
    | some (name, afterName) =>
      let (t, c) ← declarationRest env c nameAt none t name afterName
      return (some t, c)

def statementOver (env : Env) (stmt : StmtParser) (c : Cursor) : Parse (At (Option Tree)) := do
  if c.startsWith "\x7b" then
    let (t, c) ← block env stmt c
    return (some t, c)
  if let some afterSemicolon := c.symbol? ";" then
    return (none, afterSemicolon)
  if let some afterReturn := c.keyword? "return" then
    let (value, afterValue) ←
      match ← expression env afterReturn with
      | none => pure ([], afterReturn)
      | some (t, afterValue) => pure ([t], afterValue)
    let afterSemicolon ← afterValue.expect ";"
    return (some (Tree.plain .ret (env.pos c) value), afterSemicolon)
  if let some afterIf := c.keyword? "if" then
    let (t, c) ← conditionalRest env stmt (c.rest.length + 1) c afterIf
    return (some t, c)
  if (qualifier? c).isSome then
    .error ⟨c, .misplacedQualifier⟩
  simpleStatement env c

/-- A statement in which statements nest at most `limit` deep. -/
def statementWithin (env : Env) : Nat → StmtParser
  | 0, c => .error ⟨c, .tooDeep⟩
  | limit + 1, c => statementOver env (statementWithin env limit) c

def statement (env : Env) : StmtParser := fun c => statementWithin env (c.rest.length + 1) c

def statementsRest (env : Env) : Nat → Cursor → Parse (At (List Tree))
  | 0, c => .error ⟨c, .tooDeep⟩
  | limit + 1, c =>
    if c.atEnd then .ok ([], c)
    else do
      let (s, c) ← statement env c
      let (rest, c) ← statementsRest env limit c
      return (s.toList ++ rest, c)

def statements (env : Env) (c : Cursor) : Parse (At Tree) := do
  let (list, afterList) ← statementsRest env (c.rest.length + 1) c
  return (Tree.plain .block (env.pos c) list, afterList)

def parameter (env : Env) (c : Cursor) : Parse (Option (At Tree)) := do
  rejectUnknownType env c
  match typeName? env c with
  | none => return none
  | some (t, afterType) =>
    match afterType.name? with
    | none => .error ⟨afterType, .expected "a parameter name"⟩
    | some (name, afterName) =>
      let (t, afterSuffix) ← arraySuffix t afterName
      let typeTree := Tree.valued .varType (env.pos c) (.type t) []
      return some (Tree.valued .varDecl (env.pos c) (.name name) [typeTree], afterSuffix)

def functionRest (env : Env) (start : Cursor) (ret : Ty) (name : String) (c : Cursor) :
    Parse (At Tree) := do
  let (params, afterParams) ← commaList (parameter env) (c.after "(")
  let afterClose ← afterParams.expect ")"
  if afterClose.startsWith "\x7b" then
    let (body, afterBody) ← block env (statement env) afterClose
    let retTree := Tree.valued .varType (env.pos start) (.type ret) []
    let paramsTree := Tree.plain .params (env.pos c) params
    return (Tree.valued .function (env.pos start) (.name name) [retTree, paramsTree, body],
      afterBody)
  else .error ⟨afterClose, .expected "'\x7b'"⟩

/-- A function, or a declaration that may have a qualifier. -/
def item (env : Env) (start : Cursor) : Parse (At Tree) := do
  let (q, c) :=
    match qualifier? start with
    | some (q, afterQualifier) => (some q, afterQualifier)
    | none => (none, start)
  rejectUnknownType env c
  match typeName? env c with
  | none => .error ⟨c, .expected "a declaration or function"⟩
  | some (t, nameAt) =>
    match nameAt.name? with
    | none => .error ⟨nameAt, .expected "a name"⟩
    | some (name, afterName) =>
      if q.isNone && afterName.startsWith "(" then functionRest env start t name afterName
      else declarationRest env start nameAt q t name afterName

def programRest (env : Env) : Nat → Cursor → Parse (At (List Tree))
  | 0, c => .error ⟨c, .tooDeep⟩
  | limit + 1, c =>
    if c.atEnd then .ok ([], c)
    else
      match c.symbol? ";" with
      | some afterSemicolon => programRest env limit afterSemicolon
      | none => do
        let (t, c) ← item env c
        let (rest, c) ← programRest env limit c
        return (t :: rest, c)

/-- A text of functions and declarations. The tree stands at the very start of the
text, also where blanks do. -/
def program (env : Env) (c : Cursor) : Parse (At Tree) := do
  let (items, afterItems) ← programRest env (c.rest.length + 1) c
  return (Tree.plain .block (env.lines.pos 0) items, afterItems)

end VecLang.Grammar
