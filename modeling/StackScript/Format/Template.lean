import StackScript.Format.Conversion

/-!
# Templates

A template is plain text with conversions, each from a percent sign to a letter. Every conversion
takes the next argument; when there are no more, the last one serves again.

* `Progress.read` takes one character of a template, and `format?` runs a template. The output is
  held at `maxOutput` bytes, the template at `maxTemplate`.
* `format` never fails: an overlong template gives a fixed text.
-/

namespace StackScript.Format

open Text

/-- The most bytes of a template. -/
def maxTemplate : Nat := 1024

/-- The most bytes of the output. -/
def maxOutput : Nat := 5120

/-- The letters that tell the length of an argument elsewhere and mean nothing here. -/
def isLengthModifier (c : Char) : Bool := "hljztwLI".toList.contains c

/-- The `k`-th argument, counted from 0: the last one if there are fewer, 0 if there is none. -/
def argument (args : List Value) (k : Nat) : Value := args.getD (min k (args.length - 1)) (.int 0)

/-- What is known between two characters of a template. -/
structure Progress where
  /-- The output so far. -/
  out : List Char := []
  /-- Whether the output takes no more. -/
  full : Bool := false
  /-- Plain text that waits for the next conversion. -/
  plain : List Char := []
  /-- What an open conversion has collected after its percent sign. -/
  opened : Option (List Char) := none
  /-- The number of arguments taken. -/
  taken : Nat := 0

namespace Progress

/-- Appends as much of a piece as fits. -/
def append (p : Progress) (piece : List Char) : Progress :=
  let room := maxOutput - size p.out
  if size piece < room then { p with out := p.out ++ piece }
  else { p with out := p.out ++ cut room piece, full := true }

/-- Appends the waiting text and a piece, after which no conversion is open. -/
def emit (p : Progress) (piece : List Char) : Progress :=
  { p.append (p.plain ++ piece) with plain := [], opened := none }

/-- Reads a letter that ends a conversion: the printed argument, or the conversion itself if the
letter has no meaning. -/
def convert (strings : Strings) (args : List Value) (p : Progress) (collected : List Char)
    (letter : Char) : Progress :=
  let spec := Spec.ofChars collected
  let printed := render? strings spec letter (argument args p.taken)
  { p.emit (printed.getD ('%' :: collected ++ [letter])) with taken := p.taken + 1 }

/-- Reads a character of a template. A percent sign opens a conversion; in an open one a second
percent sign prints what was collected, length modifiers vanish, and any other letter ends it. -/
def read (strings : Strings) (args : List Value) (p : Progress) (c : Char) : Progress :=
  if p.full then p
  else
    match p.opened with
    | none =>
      if c = '%' then { p with opened := some [] } else { p with plain := p.plain ++ [c] }
    | some collected =>
      if c = '%' then p.emit ('%' :: collected)
      else if isLengthModifier c then p
      else if c.isAlpha then p.convert strings args collected c
      else { p with opened := some (collected ++ [c]) }

/-- The output at the end of a template, with whatever was still waiting. -/
def finish (p : Progress) : List Char :=
  if p.full then p.out
  else
    match p.opened with
    | none => (p.emit []).out
    | some collected => (p.emit ('%' :: collected)).out

end Progress

/-- Runs a template on arguments. Only an overlong template fails. -/
def format? (strings : Strings) (template : String) (args : List Value) : Except Error String :=
  let cs := template.toList
  if maxTemplate < size cs then .error (.formatOverflow (size cs))
  else .ok (String.ofList (cs.foldl (Progress.read strings args) {}).finish)

/-- The text for an overlong template. -/
def overflowText : String := "Error"

/-- Runs a template on arguments. -/
def format (strings : Strings) (template : String) (args : List Value) : String :=
  match format? strings template args with
  | .ok text => text
  | .error _ => overflowText

end StackScript.Format
