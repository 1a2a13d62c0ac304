import StackScript.Number.Exact

/-!
# Single-precision numbers

The binary floating-point numbers of 32 bits, held as their bit patterns: a sign bit, eight bits of
exponent and 23 bits of fraction.

* `exact` tells what a number is worth; `ofRatio` is the number nearest to a fraction.
* `bits_ofRatio_zero` and `isZero_iff` pin the two zeros.
* `toInt`, `ceil`, `floor` and `round` go to 32-bit integers and never fail.
-/

namespace StackScript

open Number

/-- A single-precision number by its bits. -/
structure Single where
  bits : UInt32
  deriving DecidableEq, Repr

namespace Single

/-- The pattern of positive infinity, above the patterns of all finite magnitudes. -/
def infinityBits : Nat := 0x7F800000

/-- What stands for every result that is no number. -/
def nan : Single := ⟨0x7FC00000⟩

/-- The bit of the sign. -/
def signBit : Nat := 0x80000000

/-- The bits without the sign. -/
def magnitudeBits (x : Single) : Nat := x.bits.toNat % signBit

/-- Whether the sign bit is set. -/
def isNegative (x : Single) : Bool := signBit ≤ x.bits.toNat

/-- Whether a number is a zero of either sign. -/
def isZero (x : Single) : Bool := x.magnitudeBits == 0

/-- A number from its sign and the bits of its magnitude. -/
def ofParts (negative : Bool) (magnitude : Nat) : Single :=
  ⟨UInt32.ofNat ((if negative then signBit else 0) + magnitude)⟩

/-- An infinity. -/
def infinity (negative : Bool) : Single := ofParts negative infinityBits

/-- A zero. -/
def zero (negative : Bool) : Single := ofParts negative 0

/-- The lowest bit of the exponent, and the bit before the fraction of a normal number. -/
def exponentUnit : Nat := 0x800000

/-- The magnitude that finite bits stand for: the numbers below the first normal one share its
exponent. -/
def scaledOf (magnitude : Nat) : Scaled :=
  let field : Nat := magnitude / exponentUnit
  let fraction : Nat := magnitude % exponentUnit
  if field = 0 then ⟨fraction, -149⟩ else ⟨exponentUnit + fraction, (field : Int) - 150⟩

/-- What a number is worth. -/
def exact (x : Single) : Exact :=
  if x.magnitudeBits < infinityBits then .finite x.isNegative (scaledOf x.magnitudeBits)
  else if x.magnitudeBits = infinityBits then .infinite x.isNegative
  else .nan

/-- Whether a number is none. -/
def isNaN (x : Single) : Bool := infinityBits < x.magnitudeBits

/-- The bits of a magnitude of at most 24 significant bits and an exponent of at least -149. A
mantissa rounded up to `2 ^ 24` carries into the exponent, and what passes the greatest number is
infinite. -/
def pack (s : Scaled) : Nat := min ((s.exp + 149).toNat * exponentUnit + s.mant) infinityBits

/-- The number nearest to `num / den`, a tie going to the even mantissa. -/
def ofRatio (negative : Bool) (num den : Nat) : Single :=
  ofParts negative (if num = 0 then 0 else pack (nearest 24 (-149) num den))

/-- The number nearest to an integer. -/
def ofInt (n : Int) : Single := ofRatio (n < 0) n.natAbs 1

/-- The number without its sign. -/
def abs (x : Single) : Single := ⟨UInt32.ofNat x.magnitudeBits⟩

/-- The number without its fraction, held in the range of 32 bits. -/
def toInt (x : Single) : Int32 := x.exact.saturateWith Exact.toInt?

/-- The greatest integer not above the number, held in the range of 32 bits. -/
def floor (x : Single) : Int32 := x.exact.saturateWith Exact.floor?

/-- The least integer not below the number, held in the range of 32 bits. -/
def ceil (x : Single) : Int32 := x.exact.saturateWith Exact.ceil?

/-- The nearest integer, a half going away from zero, held in the range of 32 bits. -/
def round (x : Single) : Int32 := x.exact.saturateWith Exact.round?

theorem bits_ofRatio_zero (negative : Bool) (den : Nat) :
    (ofRatio negative 0 den).bits = if negative then 0x80000000 else 0 := by
  cases negative <;> rfl

theorem isZero_iff {x : Single} : x.isZero = true ↔ x.bits = 0 ∨ x.bits = 0x80000000 := by
  have h := x.bits.toNat_lt
  simp only [isZero, magnitudeBits, signBit, beq_iff_eq, ← UInt32.toNat_inj, UInt32.reduceToNat]
  omega

end Single

end StackScript
