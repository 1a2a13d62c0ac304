/-!
# Rounding quotients

Exact rounding of a quotient of natural numbers; every ratio `num / den` below has `0 < den`.

* `divEven` rounds to the nearest integer, a tie to the even one (`divEven_within_half`).
* `log2` and `log10` are the exponents of the leading binary and decimal digit.
* `nearest` rounds to so many significant bits above a least exponent.
-/

namespace StackScript.Number

/-- `num / den` rounded to the nearest integer, a tie to the even one. -/
def divEven (num den : Nat) : Nat :=
  let q := num / den
  let r := num % den
  if 2 * r < den ∨ (2 * r = den ∧ q % 2 = 0) then q else q + 1

/-- The rounded quotient is within half a unit of the quotient. -/
theorem divEven_within_half (num : Nat) {den : Nat} (h : 0 < den) :
    2 * (divEven num den * den) ≤ 2 * num + den ∧ 2 * num ≤ 2 * (divEven num den * den) + den := by
  have e := Nat.div_add_mod num den
  have l := Nat.mod_lt num h
  simp only [divEven]
  rw [Nat.mul_comm] at e
  split
  · omega
  · rw [Nat.add_mul, Nat.one_mul]
    omega

/-- A quotient without a remainder is its own rounding. -/
theorem divEven_mul (q : Nat) {den : Nat} (h : 0 < den) : divEven (q * den) den = q := by
  simp [divEven, Nat.mul_div_cancel q h, h]

/-- The power `b ^ e` as a numerator: one if `e` is negative. -/
def scaleUp (b : Nat) (e : Int) : Nat := b.pow e.toNat

/-- The greatest `e` with `2 ^ e ≤ num / den`, for `0 < num`. -/
def log2 (num den : Nat) : Int :=
  let e : Int := num.log2 - den.log2
  if den * scaleUp 2 e ≤ num * scaleUp 2 (-e) then e else e - 1

/-- The number of digits of a number in base ten. -/
def digitCount (n : Nat) : Nat := (Nat.toDigits 10 n).length

/-- The greatest `e` with `10 ^ e ≤ num / den`, for `0 < num`. -/
def log10 (num den : Nat) : Int :=
  if den ≤ num then digitCount (num / den) - 1 else -digitCount ((den - 1) / num)

/-- A magnitude in binary: `mant * 2 ^ exp`. -/
structure Scaled where
  mant : Nat
  exp : Int
  deriving DecidableEq, Repr

/-- The numerator of a magnitude as a fraction. -/
def Scaled.num (s : Scaled) : Nat := s.mant * scaleUp 2 s.exp

/-- The denominator of a magnitude as a fraction, a power of two. -/
def Scaled.den (s : Scaled) : Nat := scaleUp 2 (-s.exp)

theorem Scaled.den_pos (s : Scaled) : 0 < s.den := Nat.pow_pos (by decide)

/-- A positive `num / den` rounded, a tie to the even mantissa, to `bits` significant bits, or to
fewer where the last bit would stand for less than `2 ^ least`. -/
def nearest (bits : Nat) (least : Int) (num den : Nat) : Scaled :=
  let exp := max (log2 num den - (bits - 1)) least
  ⟨divEven (num * scaleUp 2 (-exp)) (den * scaleUp 2 exp), exp⟩

end StackScript.Number
