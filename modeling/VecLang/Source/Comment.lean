import VecLang.Text.Basic

/-!
# Comments

A line comment runs from `//` to the end of its line, a block comment from `/*` to
the next `*/`. Stripping removes both and keeps every newline, so that a line of the
source remains the line of that number. A block comment leaves a space behind, and
so it still divides what stands on its two sides.
-/

namespace VecLang.Comment

/-- Where a scan stands: in code, in a line comment, or in the block comment that
opened at a byte offset. -/
inductive Mode where
  | code
  | line
  | block (opened : Nat)
deriving DecidableEq, Repr

/-- The text without its comments, scanned from byte `offset` on, or the offset of
a block comment that never ends. -/
def stripFrom : Mode → Nat → Text → Except Nat Text
  | .block opened, _, [] => .error opened
  | _, _, [] => .ok []
  | .code, offset, '/' :: '/' :: rest => stripFrom .line (offset + 2) rest
  | .code, offset, '/' :: '*' :: rest => stripFrom (.block offset) (offset + 2) rest
  | .code, offset, c :: rest => return c :: (← stripFrom .code (offset + c.utf8Size) rest)
  | .line, offset, '\n' :: rest => return '\n' :: (← stripFrom .code (offset + 1) rest)
  | .line, offset, c :: rest => stripFrom .line (offset + c.utf8Size) rest
  | .block _, offset, '*' :: '/' :: rest => return ' ' :: (← stripFrom .code (offset + 2) rest)
  | .block opened, offset, '\n' :: rest =>
    return '\n' :: (← stripFrom (.block opened) (offset + 1) rest)
  | .block opened, offset, c :: rest => stripFrom (.block opened) (offset + c.utf8Size) rest

/-- The text without its comments, or the offset of a block comment that never ends. -/
def strip (source : Text) : Except Nat Text := stripFrom .code 0 source

end VecLang.Comment
