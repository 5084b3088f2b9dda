import VecLang.Source.Position

/-!
# Excerpts of a source text

The lines around a place, numbered, with a row of carets under the characters at
and beside the place.
-/

namespace VecLang.Excerpt

def alignRight (width n : Nat) : Text :=
  let digits := Nat.toDigits 10 n
  Text.replicate (width - digits.length) ' ' ++ digits

/-- The row of carets under columns `col - 2` to `col + 2` of `line`, cut to the
line. There is none if the first of them lies beyond the line. -/
def caretRow (width : Nat) (line : Text) (col : Nat) : Text :=
  let lo := col - 2
  let hi := min (col + 2) (line.length - 1)
  if lo ≤ hi ∧ lo < line.length then
    Text.replicate (width + 4 + lo) ' ' ++ Text.replicate (hi - lo + 1) '^' ++ ['\n']
  else []

/-- One numbered line, and below the line in question its carets. -/
def row (width line col index : Nat) (content : Text) : Text :=
  [' ', ' '] ++ alignRight width (index + 1) ++ [':', ' '] ++ content ++ ['\n'] ++
    (if index = line then caretRow width content col else [])

/-- The rows of consecutive lines, the first of which has index `first`. -/
def rows (width line col : Nat) : Nat → List Text → Text
  | _, [] => []
  | first, content :: rest =>
    row width line col first content ++ rows width line col (first + 1) rest

/-- `count` lines of `source` around `line`, as far as they exist. -/
def around (source : Text) (line col count : Nat) : Text :=
  let all := Text.splitLines source
  let width := (Nat.toDigits 10 all.length).length
  let start := line - count / 2
  rows width line col start ((all.take (line + count / 2 + 1)).drop start)

/-- The numbers of a machine word are those below. -/
def wordRange : Nat := Nat.pow 2 64

/-- The excerpt at a place that is given in machine words. There is none if the sum
that ends the window leaves their range, or for a line that is shown the sum that
ends the carets. -/
def around? (source : Text) (line col count : Nat) : Option Text :=
  if line + count / 2 + 1 < wordRange ∧
      (line < (Text.splitLines source).length → col + 2 < wordRange) then
    some (around source line col count)
  else none

end VecLang.Excerpt
