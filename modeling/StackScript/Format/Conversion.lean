import StackScript.Format.Integer
import StackScript.Format.Float
import StackScript.Value

/-!
# Conversions of arguments

What the letter of a conversion makes of an argument.

* `Conversion.forArgument?` chooses the conversion: a text letter prints an argument that is no
  text as an integer.
* `render` prints an argument; no conversion shows the address of an object.
-/

namespace StackScript.Format

open Number

/-- What a letter asks for. -/
inductive Conversion where
  | integer (form : IntegerForm)
  | float (form : FloatForm) (capital : Bool)
  | text
  deriving DecidableEq, Repr

namespace Conversion

/-- The conversion of a letter. -/
def ofLetter? : Char → Option Conversion
  | 'd' | 'i' | 'n' => some (.integer .signed)
  | 'u' => some (.integer .unsigned)
  | 'o' => some (.integer .octal)
  | 'x' => some (.integer (.hex false))
  | 'X' => some (.integer (.hex true))
  | 'c' => some (.integer .character)
  | 'p' => some (.integer .address)
  | 'f' => some (.float .fixed false)
  | 'F' => some (.float .fixed true)
  | 'e' => some (.float .exponent false)
  | 'E' => some (.float .exponent true)
  | 'g' => some (.float .general false)
  | 'G' => some (.float .general true)
  | 'a' => some (.float .hex false)
  | 'A' => some (.float .hex true)
  | 's' | 'S' | 'Z' => some .text
  | _ => none

/-- The conversion of a letter for an argument. -/
def forArgument? (letter : Char) (arg : Value) : Option Conversion :=
  match ofLetter? letter with
  | some .text => if arg.isString then some .text else some (.integer .signed)
  | conversion => conversion

end Conversion

/-- The texts of string values, by handle. -/
abbrev Strings := UInt32 → Option String

/-- An argument as an integer, whatever its kind. -/
def integerArgument : Value → Int32
  | .int n => n
  | .float x => x.toInt
  | .string handle => handle.toInt32
  | .pointer _ => 0

/-- An argument as an exact number, whatever its kind. -/
def numberArgument : Value → Exact
  | .int n => Exact.ofInt n.toInt
  | .float x => x.exact
  | .string handle => Exact.ofInt handle.toNat
  | .pointer _ => Exact.ofInt 0

/-- The text of an argument, empty where it has none. -/
def textArgument (strings : Strings) : Value → List Char
  | .string handle => ((strings handle).getD "").toList
  | _ => []

/-- Prints a text, cut to the precision and filled to the width. -/
def renderText (spec : Spec) (text : List Char) : List Char :=
  spec.padText (match spec.precision with
    | some n => Text.cut n text
    | none => text)

/-- What is printed for an object. -/
def unsupported : String := "<UNSUPPORTED TYPE>"

/-- Prints an argument by a conversion. -/
def Conversion.render (strings : Strings) (spec : Spec) (arg : Value) :
    Conversion → List Char
  | .integer form => renderInteger spec form (integerArgument arg)
  | .float form capital => renderFloat spec form capital (numberArgument arg)
  | .text => renderText spec (textArgument strings arg)

/-- Prints an argument by the letter of a conversion, if the letter has one; an object is printed
by any letter. -/
def render? (strings : Strings) (spec : Spec) (letter : Char) (arg : Value) :
    Option (List Char) :=
  match arg with
  | .pointer _ => some (renderText spec unsupported.toList)
  | arg => (Conversion.forArgument? letter arg).map (Conversion.render strings spec arg)

end StackScript.Format
