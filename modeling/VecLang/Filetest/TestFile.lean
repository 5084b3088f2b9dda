import VecLang.Filetest.Check
import VecLang.Emit.Target

/-!
# Test files

A test file has a header that says what is tested, a program, and at the end lines
that begin with `;` and hold directives. The header and the directives are blanked out
of the program, so that the lines of the program keep their numbers.
-/

namespace VecLang.Filetest

inductive Command where
  /-- The lowered program in its own language. -/
  | lower
  /-- The script, without the functions in front of it. -/
  | script
  /-- The error of a program that cannot be compiled. -/
  | error
deriving DecidableEq, Repr

def Command.name : Command → String
  | lower => "lower"
  | script => "js"
  | error => "error"

def Command.ofHeader? (line : Text) : Option Command :=
  if "test ".toList.isPrefixOf line then
    let word := Text.trim (line.drop 5)
    [lower, script, error].find? (·.name.toList == word)
  else none

/-- A test with its program and what is expected of the outcome. -/
structure TestCase where
  command : Command
  source : Text
  expected : Text
deriving DecidableEq, Repr

inductive Fault where
  | emptyFile
  | unknownCommand (line : String)
  | noDirectives
  | compilation (error : Error)
  | generation (error : Error)
  | unexpectedSuccess
  | check (fault : CheckFault) (actual : String)
deriving DecidableEq, Repr

def Fault.message : Fault → String
  | emptyFile => "empty test file"
  | unknownCommand line => "unknown test command '" ++ line ++ "'"
  | noDirectives => "no filecheck directives found"
  | compilation error => "Compilation failed: " ++ error.message
  | generation error => "Code generation failed: " ++ error.message
  | unexpectedSuccess => "Expected compilation to fail, but it succeeded"
  | check fault actual => fault.message ++ "\n\nActual output:\n" ++ actual

/-- Whether a line belongs to the directives if all lines after it do. -/
def isExpectedLine (line : Text) : Bool :=
  let t := Text.trim line
  t.isEmpty || t.head? == some ';'

/-- A line of the directives without its mark. -/
def unmarked (line : Text) : Text :=
  match Text.trim line with
  | ';' :: ' ' :: rest => rest
  | ';' :: rest => rest
  | t => t

/-- The lines after the header: those of the program, and those expected at the end. -/
def splitExpected (lines : List Text) : List Text × List Text :=
  let expected := (lines.reverse.takeWhile isExpectedLine).reverse
  (lines.take (lines.length - expected.length), expected)

def TestCase.ofText (content : Text) : Except Fault TestCase :=
  let lines := Text.lines content
  match lines.findIdx? (fun line => !(Text.trim line).isEmpty) with
  | none => .error .emptyFile
  | some header =>
    let headerLine := Text.trim (lines.getD header [])
    match Command.ofHeader? headerLine with
    | none => .error (.unknownCommand (String.ofList headerLine))
    | some command =>
      let (program, expectedLines) := splitExpected (lines.drop (header + 1))
      let expected := Text.joinLines (expectedLines.map unmarked)
      if hasDirectives expected then
        let blanks (n : Nat) : List Text := List.replicate n []
        .ok
          { command, expected
            source := Text.joinLines
              (blanks (header + 1) ++ program ++ blanks expectedLines.length) }
      else .error .noDirectives

def TestCase.outcome (t : TestCase) (filename : String) : Except Fault String :=
  let compiled := compile (String.ofList t.source) { filename }
  let generate (p : Program) (target : String) (options : Emit.Options) :=
    (Emit.Registry.builtin.generate p target options).map Emit.Generated.text
  match t.command with
  | .lower => do
    let p ← compiled.mapError .compilation
    (generate p "internal" {}).mapError .generation
  | .script => do
    let p ← compiled.mapError .compilation
    (generate p "js" { includePrelude := false }).mapError .generation
  | .error =>
    match compiled.bind (generate · "js" {}) with
    | .ok _ => .error .unexpectedSuccess
    | .error e => .ok e.message

/-- Runs a test file; the program is named `filename` in errors. -/
def run (content : Text) (filename : String) : Except Fault Unit := do
  let t ← TestCase.ofText content
  let actual ← t.outcome filename
  (check actual.toList t.expected).mapError (.check · actual)

end VecLang.Filetest
