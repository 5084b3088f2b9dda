import VecLang.Grammar.Statement
import VecLang.Context.Basic
import VecLang.Arena.InPlace

/-!
# Parsing a text

A whole text is parsed into a tree, or fails with an error that says what stands
where something else was wanted. The nodes of the tree are then made in an arena, one
after the other.
-/

namespace VecLang

namespace Grammar

inductive Production where
  | program
  | statements
  | expression
deriving DecidableEq, Repr

/-- A character that belongs to what a message quotes as one token. -/
def isTokenChar (c : Char) : Bool := Text.isWordChar c || c == '.'

def quoted (s : Text) : String := "'" ++ String.ofList s ++ "'"

def describe (s : Text) : String :=
  match s with
  | [] => "end of input"
  | c :: _ =>
    let token := s.takeWhile isTokenChar
    if token.isEmpty then quoted [c] else quoted token

/-- The error of a failure, and its position in the source. -/
def Failure.toError (source : Text) (f : Failure) : Error × Pos :=
  let pos := Pos.ofOffset source f.found.offset
  let malformed (fault : SyntaxFault) : Error := .malformed fault pos
  let error :=
    match f.problem with
    | .unexpected => malformed (.unexpected (describe f.found.rest))
    | .expected what => malformed (.expected what (describe f.found.rest))
    | .literalOutOfRange => malformed .literalOutOfRange
    | .misplacedQualifier => malformed .misplacedQualifier
    | .tooDeep => malformed .tooDeep
    | .unknownType name => .unknownType name
  (error, pos)

def produce (env : Env) (p : Production) (c : Cursor) : Parse (At Tree) :=
  match p with
  | .program => program env c
  | .statements => statements env c
  | .expression => do
    match ← expression env c with
    | some r => return r
    | none => .error ⟨c, .unexpected⟩

/-- The token at which reading stopped before the end of the text. -/
def leftover (s : Text) : SyntaxFault := .unexpected (quoted (s.takeWhile (!Text.isBlank ·)))

end Grammar

namespace Context

open Grammar

/-- The tree of a whole text. An unknown type is reported with its place in the
source of this context; every other error says its place itself. -/
def parseTree (ctx : Context) (p : Production) (source : Text) : Except Error Tree :=
  let env : Env := { types := ctx.types, lines := LineIndex.ofText source }
  match produce env p (Cursor.start source) with
  | .ok (t, c) =>
    if c.atEnd then .ok t
    else .error (.malformed (leftover c.rest) (Pos.ofOffset source c.offset))
  | .error failure =>
    match failure.toError source with
    | (.unknownType name, pos) => .error (ctx.locate (some pos) (.unknownType name))
    | (error, _) => .error error

/-- Parses a text into an arena, step by step, and tells the id of the tree's root. A
program becomes the root of the arena. -/
def parseInPlace (ctx : Context) (p : Production) (source : String) : Editing NodeId := do
  match ctx.parseTree p source.toList with
  | .error e => throw e
  | .ok t =>
    let id ← InPlace.graft t
    if p = .program then
      modify fun a => a.setRoot id
    return id

def parse (ctx : Context) (arena : Arena) (p : Production) (source : String) :
    Except Error (Arena × NodeId) :=
  match ctx.parseInPlace p source arena with
  | .ok id arena => .ok (arena, id)
  | .error e _ => .error e

end Context

end VecLang
