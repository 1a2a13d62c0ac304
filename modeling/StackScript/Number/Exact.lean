import StackScript.Number.Rounding

/-!
# Exact numbers

What a number of the machine is worth, whatever its kind: a signed binary magnitude, an infinity or
no number at all. Printing and integer conversion start from here.

* `Exact.toInt?` drops the fraction; `floor?`, `ceil?` and `round?` go to a neighbouring integer.
* `saturate` holds an integer within the range of a 32-bit word.
-/

namespace StackScript.Number

/-- The exact worth of a number. A zero has a sign. -/
inductive Exact where
  | finite (negative : Bool) (magnitude : Scaled)
  | infinite (negative : Bool)
  | nan
  deriving DecidableEq, Repr

namespace Exact

/-- An integer. -/
def ofInt (n : Int) : Exact := .finite (n < 0) ⟨n.natAbs, 0⟩

/-- Whether a minus sign is written before the number. -/
def isNegative : Exact → Bool
  | .finite s _ | .infinite s => s
  | .nan => false

/-- Applies a sign to a natural number. -/
def signed (negative : Bool) (n : Nat) : Int := if negative then -n else n

/-- An integer near a number: `down` and `up` tell how a positive and a negative quotient with its
remainder is taken to a whole number. -/
def toward (round : Bool → Nat → Nat → Nat) : Exact → Option Int
  | .finite s m => some (signed s (round s m.num m.den))
  | _ => none

/-- The number without its fraction. -/
def toInt? : Exact → Option Int := toward fun _ num den => num / den

/-- The greatest integer that is not above the number. -/
def floor? : Exact → Option Int :=
  toward fun negative num den => if negative then (num + den - 1) / den else num / den

/-- The least integer that is not below the number. -/
def ceil? : Exact → Option Int :=
  toward fun negative num den => if negative then num / den else (num + den - 1) / den

/-- The nearest integer, a half going away from zero. -/
def round? : Exact → Option Int := toward fun _ num den => (2 * num + den) / (2 * den)

end Exact

/-- The integer of 32 bits nearest to an integer. -/
def saturate (n : Int) : Int32 :=
  if n < Int32.minValue.toInt then Int32.minValue
  else if Int32.maxValue.toInt < n then Int32.maxValue
  else Int32.ofInt n

/-- A number taken to an integer of 32 bits: infinities go to the ends of the range, what is no
number to zero. -/
def Exact.saturateWith (f : Exact → Option Int) (x : Exact) : Int32 :=
  match f x, x with
  | some n, _ => saturate n
  | none, .infinite negative => if negative then Int32.minValue else Int32.maxValue
  | none, _ => 0

end StackScript.Number
