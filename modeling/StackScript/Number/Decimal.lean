import StackScript.Number.Rounding
import StackScript.Numeral

/-!
# Decimal notation of exact magnitudes

A magnitude `num / den` in base ten, rounded once at the last digit asked for, a tie to the even
digit; every `den` is positive.

* `fixed p` writes `p` digits after the point.
* `scientific p` gives one digit, a point, `p` digits, and the exponent of ten.
-/

namespace StackScript.Number

open Numeral

/-- A point and the digits after it; nothing without digits. -/
def fraction (cs : List Char) : List Char := if cs.isEmpty then [] else '.' :: cs

/-- `n` units of the `p`-th place after the point. -/
def places (p n : Nat) : List Char :=
  let unit := Nat.pow 10 p
  digits 10 (n / unit) ++ fraction (if p = 0 then [] else padZeros p (digits 10 (n % unit)))

/-- The magnitude with `p` digits after the point. -/
def fixed (p num den : Nat) : List Char := places p (divEven (num * Nat.pow 10 p) den)

/-- The magnitude rounded to `p + 1` significant digits: these digits as a number, and the exponent
of ten of the first. Zero has exponent 0. -/
def significant (p num den : Nat) : Nat × Int :=
  if num = 0 then (0, 0)
  else
    let e := log10 num den
    let shift : Int := p - e
    let n := divEven (num * scaleUp 10 shift) (den * scaleUp 10 (-shift))
    if n = Nat.pow 10 (p + 1) then (Nat.pow 10 p, e + 1) else (n, e)

/-- The magnitude as one digit with `p` more after the point, and the exponent of ten. -/
def scientific (p num den : Nat) : List Char × Int :=
  let (n, e) := significant p num den
  (places p n, e)

end StackScript.Number
