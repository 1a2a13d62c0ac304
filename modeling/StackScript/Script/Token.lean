import StackScript.Text.Blank

/-!
# Words of a script line

A line is cut into words at blanks; a semicolon begins a comment. A word in double quotes may hold
anything, with a backslash before what would end it.

* `Token.scan` reads a line, and fails only where a quotation is not closed.
* `Token.quote` writes a text in quotes; `scan_quote` says that it is read back.
-/

namespace StackScript.Script

open Text

/-- A word of a line. -/
inductive Token where
  | bare (text : String)
  | quoted (text : String)
  deriving DecidableEq, Repr

namespace Token

/-- What a character after a backslash stands for. -/
def unescape (c : Char) : Char :=
  if c = 'n' then '\n' else if c = 't' then '\t' else c

/-- What is being read: nothing, a bare word, a quotation, or the character after a backslash in
one; each word with its characters so far in reverse. -/
inductive State where
  | between
  | bare (read : List Char)
  | quoted (read : List Char)
  | escaped (read : List Char)

/-- A bare word from its characters in reverse. -/
def ofBare (read : List Char) : Token := .bare (String.ofList read.reverse)

/-- A quotation from its characters in reverse. -/
def ofQuoted (read : List Char) : Token := .quoted (String.ofList read.reverse)

/-- The words of what is left of a line, `none` if a quotation is not closed. -/
def scanFrom : State → List Char → Option (List Token)
  | .between, [] => some []
  | .bare read, [] => some [ofBare read]
  | .quoted _, [] | .escaped _, [] => none
  | .between, c :: cs =>
    if isBlank c then scanFrom .between cs
    else if c = ';' then some []
    else if c = '"' then scanFrom (.quoted []) cs
    else scanFrom (.bare [c]) cs
  | .bare read, c :: cs =>
    if isBlank c then (scanFrom .between cs).map (ofBare read :: ·)
    else if c = ';' then some [ofBare read]
    else scanFrom (.bare (c :: read)) cs
  | .quoted read, c :: cs =>
    if c = '"' then (scanFrom .between cs).map (ofQuoted read :: ·)
    else if c = '\\' then scanFrom (.escaped read) cs
    else scanFrom (.quoted (c :: read)) cs
  | .escaped read, c :: cs => scanFrom (.quoted (unescape c :: read)) cs

/-- The words of a line. -/
def scan (line : List Char) : Option (List Token) := scanFrom .between line

/-- A character as it is written in quotes. -/
def escape (c : Char) : List Char :=
  if c = '"' then ['\\', '"']
  else if c = '\\' then ['\\', '\\']
  else if c = '\n' then ['\\', 'n']
  else if c = '\t' then ['\\', 't']
  else [c]

/-- A text in quotes. -/
def quote (text : String) : List Char := '"' :: text.toList.flatMap escape ++ ['"']

private theorem scanFrom_escape (c : Char) (read cs : List Char) :
    scanFrom (.quoted read) (escape c ++ cs) = scanFrom (.quoted (c :: read)) cs := by
  unfold escape
  by_cases h₁ : c = '"'
  · subst h₁; simp [scanFrom, unescape]
  by_cases h₂ : c = '\\'
  · subst h₂; simp [scanFrom, unescape]
  by_cases h₃ : c = '\n'
  · subst h₃; simp [scanFrom, unescape]
  by_cases h₄ : c = '\t'
  · subst h₄; simp [scanFrom, unescape]
  simp [scanFrom, h₁, h₂, h₃, h₄]

private theorem scanFrom_flatMap_escape (text read cs : List Char) :
    scanFrom (.quoted read) (text.flatMap escape ++ cs) =
      scanFrom (.quoted (text.reverse ++ read)) cs := by
  induction text generalizing read with
  | nil => rfl
  | cons c text ih =>
    rw [List.flatMap_cons, List.append_assoc, scanFrom_escape, ih]
    simp

/-- A text in quotes is read back, whatever follows it. -/
theorem scan_quote (text : String) (cs : List Char) :
    scan (quote text ++ cs) = (scan cs).map (.quoted text :: ·) := by
  have h : scan (quote text ++ cs) =
      scanFrom (.quoted []) (text.toList.flatMap escape ++ '"' :: cs) := by
    simp [scan, quote, scanFrom, show isBlank '"' = false by decide]
  rw [h, scanFrom_flatMap_escape]
  simp [scanFrom, ofQuoted, scan]

end Token

end StackScript.Script
