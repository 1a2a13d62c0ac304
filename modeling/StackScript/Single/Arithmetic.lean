import StackScript.Single.Basic

/-!
# Arithmetic in single precision

* `div` and `sqrt` are the exact quotient and root, rounded once.
* The elementary functions are evaluated in double precision, whose 29 further bits leave one
  rounding to single precision, and take zeros, infinities and non-numbers as those functions do.
-/

namespace StackScript

open Number

namespace Single

/-- The quotient, rounded once. -/
def div (x y : Single) : Single :=
  let negative := x.isNegative != y.isNegative
  match x.exact, y.exact with
  | .nan, _ | _, .nan => nan
  | .infinite _, .infinite _ => nan
  | .infinite _, .finite .. => infinity negative
  | .finite .., .infinite _ => zero negative
  | .finite _ a, .finite _ b =>
    if b.mant = 0 then if a.mant = 0 then nan else infinity negative
    else ofRatio negative (a.num * b.den) (a.den * b.num)

/-! ## Square root -/

/-- The greatest number whose square is at most `n`. -/
def floorSqrt (n : Nat) : Nat :=
  if n = 0 then 0
  else
    let r := 2 * floorSqrt (n / 4)
    if (r + 1) * (r + 1) ≤ n then r + 1 else r
termination_by n
decreasing_by omega

/-- A magnitude as `mant * 4 ^ e`. -/
def evenExponent (s : Scaled) : Nat × Int :=
  if s.exp % 2 = 0 then (s.mant, s.exp / 2) else (2 * s.mant, (s.exp - 1) / 2)

/-- The square root, rounded once: the whole root of the mantissa times `4 ^ 32`, with one bit more
that is set where the root is not whole. -/
def sqrt (x : Single) : Single :=
  match x.exact with
  | .nan => nan
  | .infinite negative => if negative then nan else x
  | .finite negative s =>
    if s.mant = 0 then x
    else if negative then nan
    else
      let (m, e) := evenExponent s
      let root := floorSqrt (m * Nat.pow 4 32)
      let sticky := if root * root = m * Nat.pow 4 32 then 0 else 1
      let e := e - 33
      ofRatio false ((2 * root + sticky) * scaleUp 2 e) (scaleUp 2 (-e))

/-! ## Elementary functions -/

/-- The number in double precision. -/
def toDouble (x : Single) : Float := (Float32.ofBits x.bits).toFloat

/-- A double-precision number, rounded. -/
def ofDouble (d : Float) : Single := ⟨d.toFloat32.toBits⟩

/-- The sine. -/
def sin (x : Single) : Single := ofDouble x.toDouble.sin

/-- The cosine. -/
def cos (x : Single) : Single := ofDouble x.toDouble.cos

/-- The tangent. -/
def tan (x : Single) : Single := ofDouble x.toDouble.tan

/-- The angle of the point with abscissa `x` and ordinate `y`. -/
def atan2 (y x : Single) : Single := ofDouble (Float.atan2 y.toDouble x.toDouble)

/-- The natural logarithm. -/
def log (x : Single) : Single := ofDouble x.toDouble.log

/-- The natural exponential. -/
def exp (x : Single) : Single := ofDouble x.toDouble.exp

/-- The power of a base. -/
def pow (base exponent : Single) : Single := ofDouble (base.toDouble.pow exponent.toDouble)

end Single

end StackScript
