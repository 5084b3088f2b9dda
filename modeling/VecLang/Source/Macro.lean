import VecLang.Source.Comment
import VecLang.Error
import VecLang.Table

/-!
# Macros

A line that starts with `#` is a directive, and the only one is `#define NAME value`.
From the next line on, each word `NAME` reads as the value. Preprocessing strips the
comments, empties the directive lines and expands the others, line by line.
-/

namespace VecLang.Macro

abbrev Defs := Table Text

/-- The blanks that may stand inside a directive. -/
def isSpace (c : Char) : Bool := c == ' ' || c == '\t'

/-- The maximal runs of word characters and of other characters. -/
def runs (line : Text) : List Text :=
  line.splitBy fun c d => Text.isWordChar c == Text.isWordChar d

/-- What a run reads as: a word its value if it has one, and all else itself. A run
that starts with a digit is a number and no word. -/
def expandRun (defs : Defs) (run : Text) : Text :=
  if run.head?.any Text.isWordStart then (defs.get? (String.ofList run)).getD run else run

/-- A line with the words that are macros replaced, once. -/
def expand (defs : Defs) (line : Text) : Text := (runs line).flatMap (expandRun defs)

def directive? (line : Text) : Option Text :=
  match line.dropWhile isSpace with
  | '#' :: rest => some (rest.dropWhile isSpace)
  | _ => none

/-- The name and the value of a definition, read after its `#`. A fault comes with
the text at which it is found. -/
def readDefine (text : Text) : Except (SyntaxFault × Text) (String × Text) :=
  let word := text.takeWhile Text.isWordChar
  let afterWord := text.dropWhile Text.isWordChar
  let named := afterWord.dropWhile isSpace
  let name := String.ofList (named.takeWhile Text.isWordChar)
  let value := named.dropWhile Text.isWordChar
  if word ≠ "define".toList then
    .error (.unsupportedDirective (String.ofList word), text)
  else if named.length = afterWord.length ∨ named.head?.any Text.isWordStart = false then
    .error (.missingMacroName, afterWord)
  else if value.head? = some '(' then
    .error (.functionLikeMacro name, value)
  else .ok (name, Text.trim value)

/-- The lines after preprocessing, from the line at byte `offset` on. A fault comes
with its offset. -/
def expandLines (defs : Defs) (offset : Nat) : List Text → Except (SyntaxFault × Nat) (List Text)
  | [] => .ok []
  | line :: rest =>
    let next := offset + Text.byteLength line + 1
    match directive? line with
    | none => return expand defs line :: (← expandLines defs next rest)
    | some text =>
      match readDefine text with
      | .error (fault, found) =>
        .error (fault, offset + Text.byteLength line - Text.byteLength found)
      | .ok (name, value) =>
        return [] :: (← expandLines (defs.insert name (expand defs value)) next rest)

/-- What the parser reads of a source text. -/
def preprocessText (source : Text) : Except Error Text :=
  match Comment.strip source with
  | .error offset => .error (.malformed .unterminatedComment (Pos.ofOffset source offset))
  | .ok stripped =>
    match expandLines {} 0 (Text.splitLines stripped) with
    | .error (fault, offset) => .error (.malformed fault (Pos.ofOffset stripped offset))
    | .ok lines => .ok (Text.joinLines lines)

def preprocess (source : String) : Except Error String :=
  return String.ofList (← preprocessText source.toList)

end VecLang.Macro
