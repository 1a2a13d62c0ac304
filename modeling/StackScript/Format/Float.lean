import StackScript.Format.Spec
import StackScript.Number.Decimal
import StackScript.Number.Exact

/-!
# Float conversions

How a number is printed with a fraction. The number comes as its exact worth, so that every form
rounds once, at its last digit, a tie going to the even digit.

* `exponentForm`, `generalForm` and `hexForm` are the forms besides `Number.fixed`.
* `renderFloat` adds sign and filling.
-/

namespace StackScript.Format

open Number Numeral

/-- The ways to print a number with a fraction. -/
inductive FloatForm where
  /-- So many digits after the point. -/
  | fixed
  /-- One digit before the point, and an exponent of ten. -/
  | exponent
  /-- So many significant digits, in the shorter of the two. -/
  | general
  /-- In base sixteen, with an exponent of two. -/
  | hex
  deriving DecidableEq, Repr

/-- A mark, the sign of an exponent and at least `least` digits of it. -/
def exponentPart (mark : Char) (least : Nat) (e : Int) : List Char :=
  mark :: (if e < 0 then '-' else '+') :: padZeros least (digits 10 e.natAbs)

/-- The characters without those at the end that satisfy `p`. -/
def dropTrailing (p : Char → Bool) (cs : List Char) : List Char :=
  (cs.reverse.dropWhile p).reverse

/-- Digits without zeros at the end of the fraction, and without a point that is then last. -/
def stripFraction (cs : List Char) : List Char :=
  if '.' ∈ cs then dropTrailing (· == '.') (dropTrailing (· == '0') cs) else cs

/-- A point after digits that the alternative form leaves without one. -/
def altPoint (alt : Bool) (precision : Nat) : List Char :=
  if alt && precision == 0 then ['.'] else []

/-- One digit, `precision` more after the point, and an exponent of at least two digits. -/
def exponentForm (alt : Bool) (precision num den : Nat) : List Char :=
  let (mantissa, e) := scientific precision num den
  mantissa ++ altPoint alt precision ++ exponentPart 'e' 2 e

/-- `precision` significant digits, at least one: positional where the exponent of ten of the
rounded number is from -4 on and below the precision. The alternative form keeps zeros at the
end. -/
def generalForm (alt : Bool) (precision num den : Nat) : List Char :=
  let p := max precision 1
  let (mantissa, e) := scientific (p - 1) num den
  if -4 ≤ e ∧ e < p then
    let positional := fixed (p - 1 - e).toNat num den
    if alt then positional else stripFraction positional
  else if alt then exponentForm alt (p - 1) num den
  else stripFraction mantissa ++ exponentPart 'e' 2 e

/-- The magnitude in units of the `p`-th place after the point in base sixteen, once its first bit
stands before the point. -/
def hexUnits (p : Nat) (s : Scaled) : Nat := divEven (s.mant * Nat.pow 16 p) (Nat.pow 2 s.mant.log2)

/-- The places after the point that a magnitude needs in base sixteen. -/
def hexPlaces (s : Scaled) : Nat := (s.mant.log2 + 3) / 4

/-- A digit, a fraction in base sixteen and an exponent of two. Without a precision the fraction is
exact and has no zero at its end. -/
def hexForm (alt : Bool) (precision : Option Nat) (s : Scaled) : List Char :=
  let p := precision.getD (hexPlaces s)
  let units := hexUnits p s
  let ds := if p = 0 then [] else padZeros p (digits 16 (units % Nat.pow 16 p))
  let ds := if precision.isNone then dropTrailing (· == '0') ds else ds
  let e : Int := if s.mant = 0 then 0 else s.exp + s.mant.log2
  digits 10 (units / Nat.pow 16 p) ++ (if ds.isEmpty && !alt then [] else ['.']) ++ ds ++
    exponentPart 'p' 1 e

/-- Letters in capitals where asked for. -/
def inCase (capital : Bool) (cs : List Char) : List Char :=
  if capital then cs.map Char.toUpper else cs

/-- The body of a finite magnitude. -/
def floatBody (spec : Spec) (form : FloatForm) (s : Scaled) : List Char :=
  let precision := spec.precision.getD 6
  match form with
  | .fixed => fixed precision s.num s.den ++ altPoint spec.alt precision
  | .exponent => exponentForm spec.alt precision s.num s.den
  | .general => generalForm spec.alt precision s.num s.den
  | .hex => hexForm spec.alt spec.precision s

/-- Prints a number. What is not finite is never filled with zeros. -/
def renderFloat (spec : Spec) (form : FloatForm) (capital : Bool) (x : Exact) : List Char :=
  let sign := spec.sign x.isNegative
  match x with
  | .nan => spec.pad sign (inCase capital "nan".toList) false
  | .infinite _ => spec.pad sign (inCase capital "inf".toList) false
  | .finite _ s =>
    let radix := if form = .hex then inCase capital ['0', 'x'] else []
    spec.pad (sign ++ radix) (inCase capital (floatBody spec form s)) true

end StackScript.Format
