/-!
# Text as a list of characters

The language is read and written character by character, so the modules that
analyse text work on `Text`, a list of characters. This module holds the
character classes and the cuts that several of them share.

* `isBlank`: the Unicode property White_Space, with `trim` on both ends.
* `isWordChar`, `isWordStart`: the characters of names. Names are ASCII.
* `splitLines`, `joinLines`: the pieces between newlines, and back.
* `lines`: the lines of a file, where a final newline ends the last line and a
  carriage return before a newline belongs to the line end.
* `byteLength`, `takeBytes`: lengths and prefixes counted in UTF-8 bytes.
-/

namespace VecLang

abbrev Text := List Char

namespace Text

/-- The Unicode property White_Space: 25 characters. -/
def isBlank (c : Char) : Bool :=
  let n := c.toNat
  (9 ≤ n && n ≤ 13) || n == 0x20 || n == 0x85 || n == 0xA0 || n == 0x1680 ||
    (0x2000 ≤ n && n ≤ 0x200A) || n == 0x2028 || n == 0x2029 || n == 0x202F ||
    n == 0x205F || n == 0x3000

/-- A character that a name may hold after its first one. -/
def isWordChar (c : Char) : Bool :=
  c.isAlphanum || c == '_' || c == '$'

/-- A character that a name may start with: any of its characters but a digit. -/
def isWordStart (c : Char) : Bool :=
  c.isAlpha || c == '_' || c == '$'

theorem isWordChar_of_isWordStart {c : Char} (h : isWordStart c = true) : isWordChar c = true := by
  simp only [isWordStart, isWordChar, Char.isAlphanum, Bool.or_eq_true] at h ⊢
  rcases h with (h | h) | h
  · exact .inl (.inl (.inl h))
  · exact .inl (.inr h)
  · exact .inr h

def trimStart (s : Text) : Text := s.dropWhile isBlank

def trimEnd (s : Text) : Text := (s.reverse.dropWhile isBlank).reverse

def trim (s : Text) : Text := trimEnd (trimStart s)

/-- The pieces of a text between its newlines: one more than there are newlines. -/
def splitLines : Text → List Text
  | [] => [[]]
  | c :: rest =>
    if c = '\n' then [] :: splitLines rest
    else
      match splitLines rest with
      | [] => [[c]]
      | line :: others => (c :: line) :: others

def joinLines : List Text → Text
  | [] => []
  | [line] => line
  | line :: rest => line ++ '\n' :: joinLines rest

def dropReturn (line : Text) : Text :=
  if line.getLast? = some '\r' then line.dropLast else line

/-- The lines of a file, each without its line end. A newline at the very end
opens no further line, and a carriage return counts as part of the line end only
in front of a newline. -/
def lines (s : Text) : List Text :=
  let pieces := splitLines s
  let last := pieces.getLastD []
  pieces.dropLast.map dropReturn ++ (if last.isEmpty then [] else [last])

def byteLength (s : Text) : Nat := s.foldr (fun ch n => ch.utf8Size + n) 0

/-- The longest prefix of at most `n` bytes. -/
def takeBytes : Nat → Text → Text
  | _, [] => []
  | n, c :: rest => if c.utf8Size ≤ n then c :: takeBytes (n - c.utf8Size) rest else []

def replicate (n : Nat) (c : Char) : Text := List.replicate n c

theorem splitLines_ne_nil (s : Text) : splitLines s ≠ [] := by
  cases s with
  | nil => simp [splitLines]
  | cons c rest =>
    simp only [splitLines]
    split
    · simp
    · split <;> simp

theorem joinLines_cons {line : Text} {rest : List Text} (h : rest ≠ []) :
    joinLines (line :: rest) = line ++ '\n' :: joinLines rest := by
  cases rest with
  | nil => exact absurd rfl h
  | cons _ _ => rfl

theorem joinLines_splitLines (s : Text) : joinLines (splitLines s) = s := by
  induction s with
  | nil => rfl
  | cons c rest ih =>
    simp only [splitLines]
    split
    · next h => rw [joinLines_cons (splitLines_ne_nil rest), ih, h]; rfl
    · next h =>
      cases hs : splitLines rest with
      | nil => exact absurd hs (splitLines_ne_nil rest)
      | cons line others =>
        rw [hs] at ih
        cases others with
        | nil => simp only [joinLines] at ih ⊢; rw [ih]
        | cons l ls =>
          rw [joinLines_cons (by simp)] at ih ⊢
          rw [← ih]; rfl

end Text

end VecLang
