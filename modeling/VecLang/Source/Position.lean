import VecLang.Text.Basic

/-!
# Positions in a source text

A position counts lines and columns from zero and keeps the byte offset. It is
computed in two ways that differ only in the column of a line with non-ASCII text:

* `Pos.ofOffset` counts the characters since the line's start. Diagnostics use it.
* `LineIndex.pos` counts the bytes since the line's start, from the offsets at
  which the lines begin. The nodes of a syntax tree use it.
-/

namespace VecLang

/-- A place in a source text: line and column from zero, and the byte offset. -/
structure Pos where
  line : Nat := 0
  col : Nat := 0
  offset : Nat := 0
deriving DecidableEq, Repr, Inhabited

namespace Pos

/-- The position of byte `offset`, or of the end of the text if that comes first. -/
def ofOffset (source : Text) (offset : Nat) : Pos :=
  let before := Text.takeBytes offset source
  { line := before.count '\n'
    col := (before.reverse.takeWhile (· != '\n')).length
    offset := min offset (Text.byteLength source) }

/-- A position for the reader, who counts from one. -/
def display (p : Pos) : String :=
  toString (p.line + 1) ++ ":" ++ toString (p.col + 1)

end Pos

/-- The byte offsets at which the lines of a text begin, in increasing order. -/
structure LineIndex where
  starts : List Nat
deriving DecidableEq, Repr

namespace LineIndex

/-- The offsets just after each newline of a text that begins at byte `first`. -/
def startsAfter (first : Nat) : Text → List Nat
  | [] => []
  | c :: rest =>
    let next := first + c.utf8Size
    if c = '\n' then next :: startsAfter next rest else startsAfter next rest

/-- The first line begins at zero and each further one after a newline. -/
def ofText (source : Text) : LineIndex := ⟨0 :: startsAfter 0 source⟩

/-- The place of `offset` among the starts, or else the place where it would have to go. -/
def search (index : LineIndex) (offset : Nat) : Except Nat Nat :=
  let place := (index.starts.takeWhile (· < offset)).length
  if index.starts[place]? = some offset then .ok place else .error place

/-- The last line that begins at or before byte `offset`. -/
def lineOf (index : LineIndex) (offset : Nat) : Nat :=
  match index.search offset with
  | .ok line => line
  | .error next => next - 1

def pos (index : LineIndex) (offset : Nat) : Pos :=
  let line := index.lineOf offset
  { line, col := offset - index.starts.getD line 0, offset }

end LineIndex

end VecLang
