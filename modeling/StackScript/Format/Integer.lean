import StackScript.Format.Spec
import StackScript.Numeral

/-!
# Integer conversions

How a 32-bit integer is printed: signed or unsigned in base ten, in octal or hexadecimal, as a
character, or as an address.
-/

namespace StackScript.Format

open Numeral

/-- The ways to print an integer. -/
inductive IntegerForm where
  | signed
  | unsigned
  | octal
  | hex (capital : Bool)
  | character
  | address
  deriving DecidableEq, Repr

namespace IntegerForm

/-- The base of the digits. -/
def base : IntegerForm → Nat
  | octal => 8
  | hex _ | address => 16
  | _ => 10

/-- The number whose digits are printed: the magnitude where a sign is, else the word. -/
def magnitude (form : IntegerForm) (v : Int32) : Nat :=
  match form with
  | signed => v.toInt.natAbs
  | _ => v.toUInt32.toNat

/-- The digits of an integer without precision. -/
def plainDigits (form : IntegerForm) (v : Int32) : List Char :=
  let ds := digits form.base (form.magnitude v)
  match form with
  | hex true => upperDigits ds
  | _ => ds

/-- At least as many digits as the precision asks for; precision 0 leaves nothing of zero. -/
def preciseDigits (form : IntegerForm) (precision : Option Nat) (v : Int32) : List Char :=
  match precision with
  | none => form.plainDigits v
  | some p => if p = 0 ∧ v = 0 then [] else padZeros p (form.plainDigits v)

/-- What the alternative form puts before the digits of an integer. -/
def altLead (form : IntegerForm) (v : Int32) : List Char :=
  match form with
  | hex capital => if v = 0 then [] else if capital then ['0', 'X'] else ['0', 'x']
  | _ => []

/-- The digits in the alternative form: in octal the first is a zero. -/
def altDigits (form : IntegerForm) (ds : List Char) : List Char :=
  match form with
  | octal => if ds.head? = some '0' then ds else '0' :: ds
  | _ => ds

/-- The sign of an integer in a form that has one. -/
def signOf (form : IntegerForm) (spec : Spec) (v : Int32) : List Char :=
  match form with
  | signed => spec.sign (v < 0)
  | _ => []

end IntegerForm

/-- Prints an integer as digits. Zeros fill the field only without a precision. -/
def renderDigits (spec : Spec) (form : IntegerForm) (v : Int32) : List Char :=
  let ds := form.preciseDigits spec.precision v
  let sign := form.signOf spec v
  if spec.alt then spec.pad (sign ++ form.altLead v) (form.altDigits ds) spec.precision.isNone
  else spec.pad sign ds spec.precision.isNone

/-- Prints an integer. The character of a low byte 0 is nothing at all, not even filled; the address
0 has a name. -/
def renderInteger (spec : Spec) (form : IntegerForm) (v : Int32) : List Char :=
  match form with
  | .character =>
    let byte := v.toUInt32.toNat % 256
    if byte = 0 then [] else spec.padText [Char.ofNat byte]
  | .address =>
    if v = 0 then spec.padText "(nil)".toList
    else spec.padText ('0' :: 'x' :: IntegerForm.plainDigits .address v)
  | _ => renderDigits spec form v

end StackScript.Format
