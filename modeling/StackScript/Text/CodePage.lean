import StackScript.Text.Utf8

/-!
# Comparison under a code page

Game texts are bytes in a legacy code page, so their letters above ASCII fold in a way of their own.

* `CodePage.alike` compares two bytes, `CodePage.equal` two texts byte by byte.
-/

namespace StackScript.Text

/-- The code pages that fold letters above ASCII. -/
inductive CodePage where
  /-- Page 866: Cyrillic as under DOS. -/
  | cyrillicDos
  /-- Page 1251: Cyrillic as under Windows. -/
  | cyrillic
  /-- Pages 1250 and 1252: Latin as under Windows. -/
  | latin
  /-- Any other page: ASCII letters alone fold. -/
  | other
  deriving DecidableEq

namespace CodePage

/-- The page with a given number. -/
def ofNumber (n : Int32) : CodePage :=
  if n = 866 then .cyrillicDos
  else if n = 1251 then .cyrillic
  else if n = 1250 ∨ n = 1252 then .latin
  else .other

/-- An ASCII capital as its small letter. -/
def asciiLower (c : UInt8) : UInt8 := if 65 ≤ c ∧ c ≤ 90 then c + 32 else c

/-- What a byte is compared as whatever the other byte is: game fonts write the small letter 229 of
page 866 with the Latin `x`. -/
def lower (page : CodePage) (c : UInt8) : UInt8 :=
  asciiLower (if page = .cyrillicDos ∧ c = 229 then 120 else c)

/-- The glyphs among the letters that match only themselves: the bullet of page 866, the signs of
multiplication and division of the Latin pages. -/
def isSign : CodePage → UInt8 → Bool
  | .cyrillicDos, c => c == 149
  | .latin, c => c == 0xD7 || c == 0xF7
  | _, _ => false

/-- One byte for both cases of a letter above ASCII. -/
def foldHigh : CodePage → UInt8 → UInt8
  | .cyrillicDos, c =>
    if 128 ≤ c ∧ c ≤ 159 then c ||| 32
    else if 224 ≤ c ∧ c ≤ 239 then c - 48
    else if c = 240 then 241
    else c
  | .cyrillic, c =>
    if 0xC0 ≤ c ∧ c ≤ 0xDF then c ||| 32
    else if c = 0xA8 then 0xB8
    else c
  | .latin, c => if 0xC0 ≤ c ∧ c ≤ 0xDE then c ||| 32 else c
  | .other, c => c

/-- Whether two bytes above ASCII are cases of one letter. -/
def alikeHigh (page : CodePage) (a b : UInt8) : Bool :=
  128 ≤ a && 128 ≤ b && !page.isSign a && !page.isSign b && page.foldHigh a == page.foldHigh b

/-- Whether two bytes are equal up to case. -/
def alike (page : CodePage) (a b : UInt8) : Bool :=
  a == b || page.lower a == page.lower b || page.alikeHigh (page.lower a) (page.lower b)

/-- Whether two byte strings are equal up to case. -/
def equalBytes (page : CodePage) : List UInt8 → List UInt8 → Bool
  | [], [] => true
  | a :: as, b :: bs => page.alike a b && equalBytes page as bs
  | _, _ => false

/-- Whether two texts are equal up to case under the page. -/
def equal (page : CodePage) (a b : String) : Bool :=
  page.equalBytes (encode a.toList) (encode b.toList)

theorem alike_self (page : CodePage) (a : UInt8) : page.alike a a = true := by
  simp [CodePage.alike]

@[simp] theorem equal_self (page : CodePage) (a : String) : page.equal a a = true := by
  unfold equal
  induction encode a.toList with
  | nil => rfl
  | cons b bs ih => simp [equalBytes, alike_self, ih]

end CodePage

end StackScript.Text
