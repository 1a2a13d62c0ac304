import StackScript.Error
import StackScript.Single.Basic
import StackScript.Number.Decimal

/-!
# Values

What a script computes with. Every value carries its kind; the only readings across kinds are those
of a number as an integer (`Value.asInt`) and as a float (`Value.asFloat`).
-/

namespace StackScript

open Number Numeral

/-- A value of the evaluation stack. -/
inductive Value where
  | int (n : Int32)
  | float (x : Single)
  /-- A text, by its handle in the string table. -/
  | string (handle : UInt32)
  /-- An object of the host, by its address; 0 is no object. -/
  | pointer (address : UInt64)
  deriving DecidableEq, Repr

instance : Inhabited Value := ⟨.int 0⟩

namespace Value

/-- The word for the kind of a value. -/
def kind : Value → String
  | int _ => "integer"
  | float _ => "float"
  | string _ => "string"
  | pointer _ => "pointer"

/-- Whether a value is an integer. -/
def isInt : Value → Bool
  | int _ => true
  | _ => false

/-- Whether a value is a float. -/
def isFloat : Value → Bool
  | float _ => true
  | _ => false

/-- Whether a value is a text. -/
def isString : Value → Bool
  | string _ => true
  | _ => false

/-- A number as an integer; a float loses its fraction. -/
def asInt : Value → Except Error Int32
  | int n => .ok n
  | float x => .ok x.toInt
  | v => .error (.typeMismatch "number" v.kind)

/-- A number as a float; an integer is rounded. -/
def asFloat : Value → Except Error Single
  | int n => .ok (Single.ofInt n.toInt)
  | float x => .ok x
  | v => .error (.typeMismatch "number" v.kind)

/-- The number that tells a script the kind of a value. -/
def typeCode : Value → Int32
  | int _ => 1
  | float _ => 2
  | string _ | pointer _ => 3

/-- A float with five digits after the point. -/
def floatText (x : Single) : List Char :=
  match x.exact with
  | .nan => "NaN".toList
  | .infinite negative => if negative then "-inf".toList else "inf".toList
  | .finite negative s => (if negative then ['-'] else []) ++ fixed 5 s.num s.den

/-- A value written without the string table: a text shows as its handle. -/
def display : Value → String
  | int n => decimalText n.toInt
  | float x => String.ofList (floatText x)
  | string handle => "string#" ++ decimalText handle.toNat
  | pointer address =>
    if address = 0 then "null" else "object@0x" ++ String.ofList (digits 16 address.toNat)

end Value

end StackScript
