import StackScript.Single.Basic
import StackScript.Numeral

/-!
# Reading single-precision numbers

Decimal numerals: digits with at most one point among them, and an exponent of ten.

* `Decimal.leading?` takes the longest numeral at the beginning of a text.
* `Single.ofLiteral?` reads a text that is a numeral as a whole and rounds once.
* `Single.leading` reads the numeral that a text begins with, if any, and rounds first to double
  and then to single precision.
-/

namespace StackScript

open Number Numeral

/-- An unsigned decimal numeral: `coefficient * 10 ^ exponent`. -/
structure Decimal where
  coefficient : Nat
  exponent : Int
  deriving DecidableEq, Repr

namespace Decimal

/-- The exponent at the beginning of a text and what follows it: a letter `e`, a sign if any, and
digits. Without digits there is none. -/
def leadingExponent : List Char → Int × List Char
  | c :: cs =>
    if c = 'e' ∨ c = 'E' then
      let (negative, ds) := splitSign cs
      match ds.takeWhile (isDigit 10) with
      | [] => (0, c :: cs)
      | es => (Exact.signed negative (ofDigits 10 es), ds.dropWhile (isDigit 10))
    else (0, c :: cs)
  | [] => (0, [])

/-- The digits after a point at the beginning of a text, and what follows them. -/
def leadingFraction : List Char → List Char × List Char
  | '.' :: cs => (cs.takeWhile (isDigit 10), cs.dropWhile (isDigit 10))
  | cs => ([], cs)

/-- The longest numeral at the beginning of a text and what follows it. At least one digit must come
before or after the point. -/
def leading? (cs : List Char) : Option (Decimal × List Char) :=
  let whole := cs.takeWhile (isDigit 10)
  let (part, rest) := leadingFraction (cs.dropWhile (isDigit 10))
  if whole.isEmpty && part.isEmpty then none
  else
    let (e, rest) := leadingExponent rest
    some (⟨ofDigits 10 (whole ++ part), e - part.length⟩, rest)

/-- A numeral as a fraction, `none` where it passes every double-precision number; a numeral below
half of the least such number becomes zero. The bounds keep the powers of ten small: the coefficient
is at least 1 and below `2 ^ (log2 + 1)`, and `10 ^ 400` is above `2 ^ 1024`, `10` above `2 ^ 3`. -/
def ratio? (d : Decimal) : Option (Nat × Nat) :=
  if d.coefficient = 0 then some (0, 1)
  else if 400 ≤ d.exponent then none
  else if d.coefficient.log2 + 1 + 1100 < 3 * -d.exponent then some (0, 1)
  else some (d.coefficient * scaleUp 10 d.exponent, scaleUp 10 (-d.exponent))

end Decimal

namespace Single

/-- The number nearest to a numeral. -/
def ofDecimal (negative : Bool) (d : Decimal) : Single :=
  match d.ratio? with
  | none => infinity negative
  | some (num, den) => ofRatio negative num den

/-- The number nearest to the double-precision number nearest to a numeral. -/
def ofDecimalTwice (negative : Bool) (d : Decimal) : Single :=
  match d.ratio? with
  | none => infinity negative
  | some (num, den) =>
    if num = 0 then zero negative
    else
      let s := nearest 53 (-1074) num den
      ofRatio negative s.num s.den

/-- The characters in lower case. -/
def lower (cs : List Char) : List Char := cs.map Char.toLower

/-- The number that a whole text writes: a numeral, `inf`, `infinity` or `nan` after an optional
sign, which is the sign of the number whatever it is. -/
def ofLiteral? (cs : List Char) : Option Single :=
  let (negative, cs) := splitSign cs
  if lower cs = "inf".toList ∨ lower cs = "infinity".toList then some (infinity negative)
  else if lower cs = "nan".toList then some (ofParts negative nan.magnitudeBits)
  else
    match Decimal.leading? cs with
    | some (d, []) => some (ofDecimal negative d)
    | _ => none

/-- The number at the beginning of a text after spaces and an optional sign: whatever begins with
`inf` or `nan`, or else the longest numeral. It is a positive zero if there is none. -/
def leading (text : String) : Single :=
  let (negative, cs) := splitSign (text.toList.dropWhile isSpace)
  if "inf".toList.isPrefixOf (lower cs) then infinity negative
  else if "nan".toList.isPrefixOf (lower cs) then nan
  else
    match Decimal.leading? cs with
    | some (d, _) => ofDecimalTwice negative d
    | none => zero false

end Single

end StackScript
