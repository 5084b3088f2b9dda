import VecLang.Filetest.Directive

/-!
# Checking a text against directives

The directives run in order over a text. The state is the place after the last match
in order and the place after the furthest match. Every search is of a cut of the text,
at whose ends words begin and end too.
-/

namespace VecLang.Filetest

/-- Whether a pattern matches at the front of a text, given the character before. -/
def Pattern.matchesAt (p : Pattern) (before : Option Char) (s : Text) : Bool :=
  let last := if p.text.isEmpty then before else p.text.getLast?
  p.text.isPrefixOf s &&
    (!p.wordStart || Text.isWordBoundary before s.head?) &&
    (!p.wordEnd || Text.isWordBoundary last (s.drop p.text.length).head?)

/-- The place of the first match in a text that begins at `place`. -/
def Pattern.findFrom? (p : Pattern) (before : Option Char) (place : Nat) : Text → Option Nat
  | [] => if p.matchesAt before [] then some place else none
  | c :: rest =>
    if p.matchesAt before (c :: rest) then some place
    else p.findFrom? (some c) (place + 1) rest

/-- The place of the first match between two places of a text. -/
def Pattern.find? (p : Pattern) (text : Text) (start stop : Nat) : Option Nat :=
  p.findFrom? none start ((text.take stop).drop start)

/-- The place after the next newline, or the end of the text. -/
def nextLineStart (text : Text) (place : Nat) : Nat :=
  match (text.drop place).findIdx? (· == '\n') with
  | some i => place + i + 1
  | none => text.length

structure Progress where
  /-- The place after the last match in order. -/
  lastOrdered : Nat := 0
  /-- The place after the furthest match. -/
  furthest : Nat := 0
  /-- What may not stand between a place and the next match in order. -/
  forbidden : List (Nat × Pattern) := []
deriving Repr

/-- Whether nothing forbidden stands before `stop`. -/
def Progress.clear (s : Progress) (text : Text) (stop : Nat) : Bool :=
  s.forbidden.all fun (start, p) => (p.find? text start stop).isNone

/-- Whether a check succeeded, or the variable without a value that it came upon. -/
abbrev Checked := Except String

/-- A pattern that mentions no variable. -/
def Pattern.resolve (p : Pattern) : Checked Pattern :=
  match p.undefined? with
  | some name => .error name
  | none => .ok p

/-- Goes on after a match in order between two places, if there is one. -/
def Progress.ordered (s : Progress) (text : Text) (p : Pattern) (start stop : Nat) :
    Checked (Option Progress) := do
  let p ← p.resolve
  match p.find? text start stop with
  | none => return none
  | some found =>
    let after := found + p.text.length
    if s.clear text found then return some { lastOrdered := after, furthest := after }
    else return none

/-- Goes on after one directive, if it holds. -/
def Progress.step (s : Progress) (text : Text) : Directive → Checked (Option Progress)
  | .check p => s.ordered text p s.furthest text.length
  | .sameLine p => s.ordered text p s.furthest (nextLineStart text s.furthest)
  | .nextLine p =>
    let start := nextLineStart text s.furthest
    s.ordered text p start (nextLineStart text start)
  | .unordered p => do
    let p ← p.resolve
    match p.find? text s.lastOrdered text.length with
    | none => return none
    | some found => return some { s with furthest := max s.furthest (found + p.text.length) }
  | .absent p => do
    let p ← p.resolve
    return some { s with forbidden := s.forbidden ++ [(s.lastOrdered, p)] }
  | .define _ => return some s

def Progress.run (text : Text) (s : Progress) : List Directive → Checked Bool
  | [] => return s.clear text text.length
  | d :: rest => do
    match ← s.step text d with
    | none => return false
    | some s => s.run text rest

inductive CheckFault where
  | badDirective (line : String) (fault : DirectiveFault)
  | undefinedVariable (name : String)
  | mismatch
deriving DecidableEq, Repr

def CheckFault.message : CheckFault → String
  | badDirective line fault =>
    "Failed to parse filecheck directive '" ++ line ++ "': " ++ fault.message
  | undefinedVariable name => "Filecheck error: undefined variable $" ++ name
  | mismatch => "Filecheck failed:"

def directives (expected : Text) : Except CheckFault (List Directive) := do
  let found ← ((Text.lines expected).map Text.trim).mapM fun line =>
    (Directive.ofLine? line).mapError (.badDirective (String.ofList line))
  return found.filterMap id

def check (actual expected : Text) : Except CheckFault Unit := do
  let ds ← directives expected
  match Progress.run actual {} ds with
  | .ok true => .ok ()
  | .ok false => .error .mismatch
  | .error name => .error (.undefinedVariable name)

end VecLang.Filetest
