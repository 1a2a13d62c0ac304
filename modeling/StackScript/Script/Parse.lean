import StackScript.Opcode
import StackScript.Script.Token
import StackScript.Single.Reader
import StackScript.Text.Line
import StackScript.Error

/-!
# Scripts

A script has one command per line: a value to put on the stack, an opcode to do, an operation to
call by name with its arguments, or the top value to print.

* `parse` reads the commands of a text with the numbers of their lines, or says which line is wrong
  and why (`Fault`).
-/

namespace StackScript.Script

open Numeral

/-- A value written in a script. -/
inductive Literal where
  | int (n : Int32)
  | float (x : Single)
  | text (s : String)
  deriving DecidableEq, Repr

/-- A command of a script. -/
inductive Command where
  | push (value : Literal)
  | op (code : UInt16)
  | call (name : String) (args : List Literal)
  | print
  deriving DecidableEq, Repr

/-- A command with the number of its line. -/
structure Line where
  number : Nat
  command : Command
  deriving DecidableEq, Repr

/-- What is wrong with a line. -/
inductive Cause where
  | unterminatedString
  | invalidLiteral (word : String)
  | invalidOpcode (word : String)
  | unknownOpcode (word : String)
  | noCommand (line : String)
  deriving DecidableEq, Repr

/-- The words for what is wrong with a line. -/
def Cause.message : Cause → String
  | unterminatedString => "unterminated string"
  | invalidLiteral word => "invalid literal '" ++ word ++ "'"
  | invalidOpcode word => "invalid opcode '" ++ word ++ "'"
  | unknownOpcode word => "unknown opcode '" ++ word ++ "'"
  | noCommand line => "cannot parse '" ++ line ++ "'"

/-- A line that is wrong. -/
structure Fault where
  line : Nat
  cause : Cause
  deriving DecidableEq, Repr

/-- A wrong line as an error. -/
def Fault.toError (f : Fault) : Error :=
  .script ("line " ++ decimalText f.line ++ ": " ++ f.cause.message)

/-- The 32-bit integer with the bits that a word gives in base sixteen after `0x`. -/
def hexInt? : List Char → Option Int32
  | '0' :: 'x' :: ds => (natBelow? UInt32.size 16 ds).map fun n => (UInt32.ofNat n).toInt32
  | _ => none

/-- The value that a word writes: a quotation is a text, any other word an integer if it can be read
as one, else a float. -/
def parseLiteral : Token → Except Cause Literal
  | .quoted text => .ok (.text text)
  | .bare word =>
    match (int32Of? word.toList).or (hexInt? word.toList) with
    | some n => .ok (.int n)
    | none =>
      match Single.ofLiteral? word.toList with
      | some x => .ok (.float x)
      | none => .error (.invalidLiteral word)

/-- The number of the opcode that a word names, or gives in base sixteen after `0x`. -/
def parseOpcode : Token → Except Cause UInt16
  | .quoted text => .error (.unknownOpcode ("\"" ++ text))
  | .bare word =>
    match word.toList with
    | '0' :: 'x' :: ds =>
      match natBelow? UInt16.size 16 ds with
      | some n => .ok (UInt16.ofNat n)
      | none => .error (.invalidOpcode word)
    | _ =>
      match Opcode.ofName? word with
      | some op => .ok op.code
      | none => .error (.unknownOpcode word)

/-- The name of the operation to call; double quotes at its beginning do not count. -/
def callName : Token → String
  | .bare word | .quoted word => String.ofList (word.toList.dropWhile (· == '"'))

/-- The command that the words of a line make up, `none` for a line without words. -/
def parseWords (line : List Char) : List Token → Except Cause (Option Command)
  | [] => .ok none
  | [.bare "push", value] => do pure (some (.push (← parseLiteral value)))
  | [.bare "op", opcode] => do pure (some (.op (← parseOpcode opcode)))
  | .bare "call" :: name :: args => do
    pure (some (.call (callName name) (← args.mapM parseLiteral)))
  | [.bare "print"] => .ok (some .print)
  | _ => .error (.noCommand (String.ofList (Text.trim line)))

/-- The command of a line. -/
def parseLine (line : List Char) : Except Cause (Option Command) :=
  match Token.scan line with
  | none => .error .unterminatedString
  | some words => parseWords line words

/-- The commands of lines, the first of which has a number. -/
def parseFrom (number : Nat) : List (List Char) → Except Fault (List Line)
  | [] => .ok []
  | line :: lines =>
    match parseLine line with
    | .error cause => .error ⟨number, cause⟩
    | .ok none => parseFrom (number + 1) lines
    | .ok (some command) => do pure (⟨number, command⟩ :: (← parseFrom (number + 1) lines))

/-- The commands of a text. -/
def parse (text : String) : Except Fault (List Line) := parseFrom 1 (Text.lines text.toList)

end StackScript.Script
