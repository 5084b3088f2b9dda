import VecLang.Error
import VecLang.Context.Types

/-!
# Cursors and tokens

A parser moves a cursor through a source text: what is still to be read and the
byte offset reached. A token takes the blanks after it along, so that between two
tokens a cursor always stands at the next one.

A production either fails for good (`Failure`), or finds nothing of its kind and
leaves the cursor for others to try, or returns what it read. One that must be there
has type `Parse (At α)`, and one that may be missing `Parse (Option (At α))`.
-/

namespace VecLang.Grammar

/-- A place in a source text and all that follows it. -/
structure Cursor where
  rest : Text
  offset : Nat
deriving DecidableEq, Repr

inductive Problem where
  | unexpected
  | expected (what : String)
  | literalOutOfRange
  | misplacedQualifier
  | unknownType (name : String)
  | tooDeep
deriving DecidableEq, Repr

structure Failure where
  found : Cursor
  problem : Problem
deriving DecidableEq, Repr

/-- A parser's result, or the failure that ends all parsing. -/
abbrev Parse := Except Failure

abbrev At (α : Type) := α × Cursor

/-- What a parser knows beside the text: the names of types, and where the lines
of the text begin. -/
structure Env where
  types : TypeTable
  lines : LineIndex

def isSpacing (c : Char) : Bool := c == ' ' || c == '\t' || c == '\r' || c == '\n'

def keywords : List String := ["if", "else", "return", "true", "false", "in", "out", "uniform"]

namespace Cursor

def advance (c : Cursor) (n : Nat) : Cursor :=
  { rest := c.rest.drop n, offset := c.offset + Text.byteLength (c.rest.take n) }

def skipBlanks (c : Cursor) : Cursor := c.advance (c.rest.takeWhile isSpacing).length

def start (source : Text) : Cursor := skipBlanks { rest := source, offset := 0 }

def atEnd (c : Cursor) : Bool := c.rest.isEmpty

def startsWith (c : Cursor) (sym : String) : Bool := sym.toList.isPrefixOf c.rest

/-- The cursor after a symbol known to stand next. -/
def after (c : Cursor) (sym : String) : Cursor := (c.advance sym.length).skipBlanks

def symbol? (c : Cursor) (sym : String) : Option Cursor :=
  if c.startsWith sym then some (c.after sym) else none

def expect (c : Cursor) (sym : String) : Except Failure Cursor :=
  match c.symbol? sym with
  | some c => .ok c
  | none => .error ⟨c, .expected sym⟩

/-- The word that stands next, which may be a keyword. -/
def word (c : Cursor) : Text :=
  if c.rest.head?.any Text.isWordStart then c.rest.takeWhile Text.isWordChar else []

/-- The name that stands next: a word that is no keyword. -/
def name? (c : Cursor) : Option (String × Cursor) :=
  let w := c.word
  if w.isEmpty || keywords.contains (String.ofList w) then none
  else some (String.ofList w, (c.advance w.length).skipBlanks)

/-- The cursor after a keyword, if it stands next as a whole word. -/
def keyword? (c : Cursor) (kw : String) : Option Cursor :=
  if c.startsWith kw && !(c.rest.drop kw.length).head?.any Text.isWordChar then
    some (c.after kw)
  else none

/-- Whether an operator stands next, and not a longer one that starts like it. -/
def startsWithOp (c : Cursor) (sym : String) : Bool :=
  c.startsWith sym && !(sym.length == 1 && (c.rest.drop 1).head? == some '=')

end Cursor

/-- The outcome of a production where it must be there: finding nothing is a failure
at the cursor where it was looked for. -/
def require {α : Type} (what : String) (c : Cursor) : Parse (Option (At α)) → Parse (At α)
  | .error e => .error e
  | .ok (some r) => .ok r
  | .ok none => .error ⟨c, .expected what⟩

def Env.pos (env : Env) (c : Cursor) : Pos := env.lines.pos c.offset

/-- Further items, each after a comma. A comma that no item follows is not read. -/
def moreItems {α : Type} (item : Cursor → Parse (Option (At α))) : Nat → Cursor → Parse (At (List α))
  | 0, c => .error ⟨c, .tooDeep⟩
  | limit + 1, c =>
    match c.symbol? "," with
    | none => .ok ([], c)
    | some afterComma => do
      match ← item afterComma with
      | none => return ([], c)
      | some (a, c) =>
        let (rest, c) ← moreItems item limit c
        return (a :: rest, c)

/-- Items with commas between them, perhaps none. -/
def commaList {α : Type} (item : Cursor → Parse (Option (At α))) (c : Cursor) : Parse (At (List α)) := do
  match ← item c with
  | none => return ([], c)
  | some (a, c) =>
    let (rest, c) ← moreItems item (c.rest.length + 1) c
    return (a :: rest, c)

end VecLang.Grammar
