import StackScript.Text.Utf8

/-!
# Conversion specifications

The flags, width and precision between the percent sign and the letter of a conversion.

* `Spec.ofChars` reads them; characters that mean nothing there are passed over.
* `Spec.pad` fills a field to its width, counted in bytes (`size_pad`).
-/

namespace StackScript.Format

open Text

/-- Flags, width and precision of a conversion. -/
structure Spec where
  /-- `-`: filled on the right. -/
  left : Bool := false
  /-- `+`: a plus sign before a number that has no minus sign. -/
  plus : Bool := false
  /-- Blank: a blank in the place of the sign. -/
  space : Bool := false
  /-- `#`: the alternative form. -/
  alt : Bool := false
  /-- `0`: filled with zeros. -/
  zero : Bool := false
  width : Option Nat := none
  precision : Option Nat := none
  deriving DecidableEq, Repr

namespace Spec

/-- The greatest width and precision. -/
def maxField : Nat := 5120

/-- The part of a specification that a character continues. -/
inductive Part where
  | flags
  | width
  | precision
  deriving DecidableEq

/-- A width or precision with one digit more. -/
def extend (n : Option Nat) (digit : Char) : Option Nat :=
  some (min (n.getD 0 * 10 + (digit.toNat - '0'.toNat)) maxField)

/-- Reads a point or a digit of the width. -/
def readField (part : Part) (s : Spec) (c : Char) : Part × Spec :=
  if c = '.' then (.precision, { s with precision := some 0 })
  else if c.isDigit then (.width, { s with width := extend s.width c })
  else (part, s)

/-- Reads one character. Flags come first, a point begins the precision. -/
def read : Part × Spec → Char → Part × Spec
  | (.flags, s), '-' => (.flags, { s with left := true })
  | (.flags, s), '+' => (.flags, { s with plus := true })
  | (.flags, s), ' ' => (.flags, { s with space := true })
  | (.flags, s), '#' => (.flags, { s with alt := true })
  | (.flags, s), '0' => (.flags, { s with zero := true })
  | (.flags, s), c => readField .flags s c
  | (.width, s), c => readField .width s c
  | (.precision, s), c =>
    if c.isDigit then (.precision, { s with precision := extend s.precision c })
    else (.precision, s)

/-- The specification that the characters between percent sign and letter write. -/
def ofChars (cs : List Char) : Spec := (cs.foldl read (.flags, {})).2

/-- The sign written before a number. -/
def sign (s : Spec) (negative : Bool) : List Char :=
  if negative then ['-'] else if s.plus then ['+'] else if s.space then [' '] else []

/-- Fills `lead` and `body` to the width: blanks after both or before both, or zeros between them
where `zeros` allows it. -/
def pad (s : Spec) (lead body : List Char) (zeros : Bool) : List Char :=
  let fill := s.width.getD 0 - (size lead + size body)
  if s.left then lead ++ body ++ List.replicate fill ' '
  else if s.zero && zeros then lead ++ List.replicate fill '0' ++ body
  else List.replicate fill ' ' ++ lead ++ body

/-- Fills a text to the width. -/
def padText (s : Spec) (text : List Char) : List Char := s.pad [] text false

/-- A filled field is as long as the wider of the width and its content. -/
theorem size_pad (s : Spec) (lead body : List Char) (zeros : Bool) :
    size (s.pad lead body zeros) = max (s.width.getD 0) (size lead + size body) := by
  have hb := size_replicate (c := ' ') rfl (s.width.getD 0 - (size lead + size body))
  have hz := size_replicate (c := '0') rfl (s.width.getD 0 - (size lead + size body))
  unfold pad
  dsimp only
  split
  · simp only [size_append, hb]
    omega
  · split
    · simp only [size_append, hz]
      omega
    · simp only [size_append, hb]
      omega

end Spec

end StackScript.Format
