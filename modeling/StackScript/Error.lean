import StackScript.Numeral

/-!
# Errors

Everything that can go wrong, by cause.

* `Error.isFatal` holds of the errors that break the contract of the evaluation stack: a program
  that meets one stops.
* `Error.message` is the text shown to the user.
-/

namespace StackScript

open Numeral

/-- A cause of failure. -/
inductive Error where
  /-- No operation has this name. -/
  | unknownOperation (name : String)
  /-- An operation does not take this number of arguments. -/
  | arityMismatch (name : String) (args min max : Nat)
  /-- No opcode has this number. -/
  | unknownOpcode (code : UInt16)
  /-- A value was taken from an empty stack. -/
  | stackUnderflow
  /-- A value was put on a full stack. -/
  | stackOverflow (capacity : Nat)
  /-- A value has the wrong kind. -/
  | typeMismatch (expected found : String)
  /-- An operation left more or fewer values than its one result. -/
  | stackImbalance (name : String) (expected found : Nat)
  /-- A string value names no text. -/
  | invalidHandle (handle : UInt32)
  /-- The program had stopped before for a reason. -/
  | halted (reason : Error)
  /-- A fault that a script reports in its own words. -/
  | script (text : String)
  /-- A setting is not named as file, section and key. -/
  | malformedTriplet (text : String)
  /-- A settings file cannot be read. -/
  | storageUnavailable (path : String)
  /-- A settings file does not hold the setting. -/
  | keyNotFound (triplet : String)
  /-- A format template is too long. -/
  | formatOverflow (size : Nat)
  /-- The file system refused. -/
  | io (text : String)
  /-- The options text does not follow its format. -/
  | malformedOptions
  /-- An option has a value that makes no sense. -/
  | options (text : String)
  deriving DecidableEq, Repr

namespace Error

/-- Whether an error stops the program. -/
def isFatal : Error → Bool
  | unknownOperation _ | arityMismatch .. | unknownOpcode _ | stackUnderflow | stackOverflow _
  | typeMismatch .. | stackImbalance .. | invalidHandle _ | halted _ | script _ => true
  | malformedTriplet _ | storageUnavailable _ | keyNotFound _ | formatOverflow _ | io _
  | malformedOptions | options _ => false

/-- The text shown for an error. -/
def message : Error → String
  | unknownOperation name => "op_sfall_func: '" ++ name ++ "' is not implemented"
  | arityMismatch name args min max =>
    "op_sfall_func: '" ++ name ++ "': invalid number of args (" ++ decimalText args ++
      ", expected " ++ decimalText min ++ "..=" ++ decimalText max ++ ")"
  | unknownOpcode code =>
    "Unknown opcode 0x" ++ String.ofList (padZeros 4 (digits 16 code.toNat))
  | stackUnderflow => "Stack underflow"
  | stackOverflow capacity => "Stack overflow (capacity " ++ decimalText capacity ++ ")"
  | typeMismatch expected found => expected ++ " expected, got " ++ found
  | stackImbalance name expected found =>
    "'" ++ name ++ "' left the stack unbalanced: expected depth " ++ decimalText expected ++
      ", found " ++ decimalText found
  | invalidHandle handle => "invalid string handle " ++ decimalText handle.toNat
  | halted reason => "script halted: " ++ reason.message
  | script text => text
  | malformedTriplet text => "Malformed setting identifier '" ++ text ++ "'"
  | storageUnavailable path => "Unable to load configuration file '" ++ path ++ "'"
  | keyNotFound triplet => "Setting '" ++ triplet ++ "' not found"
  | formatOverflow size =>
    "Format string of " ++ decimalText size ++ " characters exceeds the maximum length"
  | io text => "IO error: " ++ text
  | malformedOptions => "Settings error: malformed text"
  | options text => "Settings error: " ++ text

end Error

end StackScript
