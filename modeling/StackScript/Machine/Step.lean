import StackScript.Machine.Named
import StackScript.Opcode
import StackScript.Single.Arithmetic
import StackScript.Single.Reader

/-!
# Opcodes at work

What each opcode does. Operands are taken from the stack, the last one first, and most opcodes leave
one result.

* `Machine.step` does an opcode, `Machine.stepCode` the opcode with a number.
-/

namespace StackScript

open Numeral

namespace Machine

/-! ## Arithmetic -/

/-- A function of one float. -/
def stepFloat (f : Single → Single) : Action Unit := do pushFloat (f (← popFloat))

/-- A rounding of a float. -/
def stepRound (f : Single → Int32) : Action Unit := do pushInt (f (← popFloat))

/-- The magnitude of a number, of the same kind. The least integer is its own magnitude. -/
def stepAbs : Action Unit := do
  match ← pop with
  | .int n => pushInt (if n < 0 then -n else n)
  | v => pushFloat (← ofExcept v.asFloat).abs

/-- The angle of a point given by ordinate and abscissa. -/
def stepArctan : Action Unit := do
  let x ← popFloat
  let y ← popFloat
  pushFloat (y.atan2 x)

/-- A power; an integer without its fraction if base and exponent are integers. -/
def stepPower : Action Unit := do
  let exponent ← pop
  let base ← pop
  let b ← ofExcept base.asFloat
  let e ← ofExcept exponent.asFloat
  if base.isInt && exponent.isInt then pushInt (b.pow e).toInt else pushFloat (b.pow e)

/-- The quotient of two integers read without a sign. -/
def divUnsigned (a b : Int32) : Int32 := (a.toUInt32 / b.toUInt32).toInt32

/-- A quotient: of floats if one of the operands is a float, else of integers read without a sign.
By a zero it is 0, and logged. -/
def stepDiv : Action Unit := do
  let divisor ← pop
  let dividend ← pop
  let d ← ofExcept divisor.asFloat
  if d.isZero then
    log "Division by zero"
    pushInt 0
  else if dividend.isFloat || divisor.isFloat then
    pushFloat ((← ofExcept dividend.asFloat).div d)
  else
    let a ← ofExcept dividend.asInt
    let b ← ofExcept divisor.asInt
    pushInt (divUnsigned a b)

/-! ## Settings -/

/-- The value of a setting as an integer, -1 if there is none. -/
def stepGetIniSetting : Action Unit := do
  let name ← popText
  let m ← get
  match m.settings.getInt m.disk name with
  | .ok n => pushInt n
  | .error _ => pushInt (-1)

/-- The room for the text of a setting. -/
def iniStringSize : Nat := 256

/-- The value of a setting as a text, the integer -1 if it is not named as one. -/
def stepGetIniString : Action Unit := do
  let name ← popText
  let m ← get
  match m.settings.getText m.disk name iniStringSize with
  | .ok text => pushText text
  | .error _ => pushInt (-1)

/-! ## Arrays -/

/-- Sets an element of an array. -/
def stepSetArray : Action Unit := do
  let value ← pop
  let key ← pop
  let id ← popInt
  setArray id key value

/-- An element of an array, or a byte of a text. -/
def stepGetArray : Action Unit := do
  let key ← pop
  let target ← pop
  match target, key with
  | .string handle, .int position => do
    let text ← textOf handle
    pushText (Text.byteAt text position)
  | target, key => do
    let id ← ofExcept target.asInt
    push ((← get).getArray id key)

/-- The number of elements of an array. -/
def stepLenArray : Action Unit := do
  let id ← popInt
  pushInt ((← get).lenArray id)

/-- Creates an array; the flags are not used. -/
def stepTempArray : Action Unit := do
  let _flags ← popInt
  let length ← popInt
  pushInt (← createArray length)

/-- The key at a position of an array. -/
def stepArrayKey : Action Unit := do
  let position ← popInt
  let id ← popInt
  push ((← get).arrayKey id position)

/-! ## Texts -/

/-- The number at the beginning of a text. -/
def stepAtoi : Action Unit := do pushInt (leadingInt (← popText))

/-- The float at the beginning of a text. -/
def stepAtof : Action Unit := do pushFloat (Single.leading (← popText))

/-- A part of a text. -/
def stepSubstr : Action Unit := do
  let length ← popInt
  let start ← popInt
  let text ← popText
  pushText (Text.slice text start length)

/-- The number of bytes of a text. -/
def stepStrlen : Action Unit := do
  let text ← popText
  pushInt (Int32.ofNat (Text.size text.toList))

/-- A template run on one value. -/
def stepSprintf : Action Unit := do
  let value ← pop
  let template ← popText
  let m ← get
  pushText (Format.format m.text? template [value])

/-- The first byte of a text as a signed number, 0 if it is empty. -/
def firstByte (text : String) : Int32 :=
  match Text.encode text.toList with
  | [] => 0
  | b :: _ => b.toInt8.toInt32

/-- The first byte of a text. -/
def stepCharcode : Action Unit := do pushInt (firstByte (← popText))

/-- The number for the kind of a value. -/
def stepTypeOf : Action Unit := do pushInt (← pop).typeCode

/-! ## All opcodes -/

/-- Does an opcode. -/
def step : Opcode → Action Unit
  | .getIniSetting => stepGetIniSetting
  | .getIniString => stepGetIniString
  | .sqrt => stepFloat Single.sqrt
  | .abs => stepAbs
  | .sin => stepFloat Single.sin
  | .cos => stepFloat Single.cos
  | .tan => stepFloat Single.tan
  | .arctan => stepArctan
  | .versionMajor => pushInt 4
  | .versionMinor => pushInt 3
  | .versionBuild => pushInt 4
  | .setArray => stepSetArray
  | .getArray => stepGetArray
  | .lenArray => stepLenArray
  | .tempArray => stepTempArray
  | .atoi => stepAtoi
  | .atof => stepAtof
  | .substr => stepSubstr
  | .strlen => stepStrlen
  | .sprintf => stepSprintf
  | .charcode => stepCharcode
  | .typeOf => stepTypeOf
  | .arrayKey => stepArrayKey
  | .power => stepPower
  | .log => stepFloat Single.log
  | .exponent => stepFloat Single.exp
  | .ceil => stepRound Single.ceil
  | .round => stepRound Single.round
  | .div => stepDiv
  | .call args => call args

/-- Does the opcode with a number. -/
def stepCode (code : UInt16) : Action Unit :=
  match Opcode.ofCode? code with
  | some op => step op
  | none => throw (.unknownOpcode code)

/-! ## Programs that stop -/

/-- Does the opcode with a number as a part of a program: a fatal error stops the program, and a
stopped program does nothing more. -/
def execute (code : UInt16) : Action Unit := fun m =>
  match m.stopped with
  | some reason => .error (.halted reason) m
  | none =>
    match stepCode code m with
    | .ok () m => .ok () m
    | .error e m => .error e (if e.isFatal then m.stop e else m)

/-- Calls an operation by name with arguments. -/
def callNamed (name : String) (args : List Value) : Action Unit := do
  match Opcode.ofArgs? args.length with
  | none => throw (.arityMismatch name args.length 0 maxCallArgs)
  | some op => do
    pushText name
    pushMany args
    execute op.code

end Machine

end StackScript
