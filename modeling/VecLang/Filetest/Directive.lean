import VecLang.Text.Basic
import VecLang.Text.Letter

/-!
# Directives

A directive says what a text must hold, and where: `check:` further on, `sameln:` on
the same line, `nextln:` on the next one, `unordered:` after the last match in order,
and `not:` says what may not stand before the next match in order. Lines without a
directive are comments.

A pattern is plain text, in which `$$` stands for a `$`. A pattern that begins or ends
in a letter or digit matches whole words there. `$name` is a variable, and no variable
has a value.
-/

namespace VecLang.Filetest

structure Pattern where
  text : Text
  /-- Whether a match must begin at a word boundary. -/
  wordStart : Bool
  /-- Whether a match must end at a word boundary. -/
  wordEnd : Bool
  /-- The first variable that the pattern mentions. -/
  undefined? : Option String
deriving DecidableEq, Repr

/-- What a line says about a text. -/
inductive Directive where
  | check (p : Pattern)
  | sameLine (p : Pattern)
  | nextLine (p : Pattern)
  | unordered (p : Pattern)
  | absent (p : Pattern)
  | define (name : String)
deriving DecidableEq, Repr

inductive DirectiveFault where
  | strayDollar
  | badVariableName (text : String)
  | missingDefinition (name text : String)
deriving DecidableEq, Repr

def DirectiveFault.message : DirectiveFault → String
  | strayDollar => "pattern syntax error, use $$ to match a single $"
  | badVariableName text => "invalid variable name in regex: " ++ text
  | missingDefinition name text =>
    "expected '=' after variable '" ++ name ++ "' in regex: " ++ text

def isVariableChar (c : Char) : Bool := c.isAlphanum || c == '_'

/-- The plain text of a pattern and the first variable in it. -/
def readParts : Text → Except DirectiveFault (Text × Option String)
  | [] => .ok ([], none)
  | '$' :: '$' :: rest => do
    let (text, v) ← readParts rest
    return ('$' :: text, v)
  | '$' :: rest => do
    let name := rest.takeWhile isVariableChar
    if name.isEmpty then .error .strayDollar
    else
      let (text, _) ← readParts rest
      return (text, some (String.ofList name))
  | c :: rest => do
    let (text, v) ← readParts rest
    return (c :: text, v)

def Pattern.ofText (s : Text) : Except DirectiveFault Pattern := do
  let (text, undefined?) ← readParts s
  return { text, undefined?
           wordStart := s.head?.any Text.isAlphanumeric
           wordEnd := s.getLast?.any Text.isAlphanumeric }

def directiveWords : List String := ["check", "sameln", "nextln", "unordered", "not", "regex"]

/-- The directive word that stands at the front of a text with a colon and a blank
after it, and what follows these. -/
def directiveAt? (s : Text) : Option (String × Text) :=
  directiveWords.findSome? fun word =>
    let opening := word.toList ++ [':']
    let rest := s.drop opening.length
    if opening.isPrefixOf s && rest.head?.any Text.isBlank then
      some (word, Text.trim rest)
    else none

def findDirective? : Option Char → Text → Option (String × Text)
  | _, [] => none
  | before, c :: rest =>
    match Text.isWordBoundary before (some c), directiveAt? (c :: rest) with
    | true, some found => some found
    | _, _ => findDirective? (some c) rest

def readDefinition (s : Text) : Except DirectiveFault Directive :=
  let name := s.takeWhile isVariableChar
  if name.isEmpty then .error (.badVariableName (String.ofList s))
  else if (s.drop name.length).head? = some '=' then .ok (.define (String.ofList name))
  else .error (.missingDefinition (String.ofList name) (String.ofList s))

def Directive.ofLine? (line : Text) : Except DirectiveFault (Option Directive) :=
  match findDirective? none line with
  | none => .ok none
  | some (word, rest) => do
    match word with
    | "check" => return some (.check (← Pattern.ofText rest))
    | "sameln" => return some (.sameLine (← Pattern.ofText rest))
    | "nextln" => return some (.nextLine (← Pattern.ofText rest))
    | "unordered" => return some (.unordered (← Pattern.ofText rest))
    | "not" => return some (.absent (← Pattern.ofText rest))
    | _ => return some (← readDefinition rest)

/-- Whether a line begins with a directive word and its colon. -/
def beginsDirective (line : Text) : Bool :=
  directiveWords.any fun word => (word.toList ++ [':']).isPrefixOf line

/-- Whether a text has a line that begins as a directive does. -/
def hasDirectives (expected : Text) : Bool :=
  (Text.lines expected).any fun line => beginsDirective (Text.trim line)

end VecLang.Filetest
