/-!
# Opcodes

The instructions of the extension, each with its number and name. Named operations are called
through opcodes that carry the number of arguments.

* `Opcode.ofCode?` and `Opcode.ofName?` find an opcode in `Opcode.all`; `ofCode?_code` and
  `ofName?_name` say that number and name are those of one opcode.
-/

namespace StackScript

/-- An instruction. -/
inductive Opcode where
  | getIniSetting
  | getIniString
  | sqrt
  | abs
  | sin
  | cos
  | tan
  | arctan
  | versionMajor
  | versionMinor
  | versionBuild
  | setArray
  | getArray
  | lenArray
  | tempArray
  | atoi
  | atof
  | substr
  | strlen
  | sprintf
  | charcode
  | typeOf
  | arrayKey
  | power
  | log
  | exponent
  | ceil
  | round
  | div
  /-- Calls a named operation with so many arguments. -/
  | call (args : Fin 9)
  deriving DecidableEq, Repr

namespace Opcode

/-- All opcodes, by number. -/
def all : List Opcode :=
  [getIniSetting, getIniString, sqrt, abs, sin, cos, tan, arctan, versionMajor, versionMinor,
   versionBuild, setArray, getArray, lenArray, tempArray, atoi, atof, substr, strlen, sprintf,
   charcode, typeOf, arrayKey, power, log, exponent, ceil, round, call 0, call 1, call 2, call 3,
   call 4, call 5, call 6, div, call 7, call 8]

/-- The number of an opcode. Calls with seven and eight arguments stand apart from the others. -/
def code : Opcode → UInt16
  | getIniSetting => 0x81AC
  | getIniString => 0x81EB
  | sqrt => 0x81EC
  | abs => 0x81ED
  | sin => 0x81EE
  | cos => 0x81EF
  | tan => 0x81F0
  | arctan => 0x81F1
  | versionMajor => 0x8210
  | versionMinor => 0x8211
  | versionBuild => 0x8212
  | setArray => 0x822E
  | getArray => 0x822F
  | lenArray => 0x8231
  | tempArray => 0x8233
  | atoi => 0x8237
  | atof => 0x8238
  | substr => 0x824E
  | strlen => 0x824F
  | sprintf => 0x8250
  | charcode => 0x8251
  | typeOf => 0x8253
  | arrayKey => 0x8256
  | power => 0x8263
  | log => 0x8264
  | exponent => 0x8265
  | ceil => 0x8266
  | round => 0x8267
  | div => 0x827F
  | call args =>
    if args.val ≤ 6 then 0x8276 + UInt16.ofNat args.val else 0x8279 + UInt16.ofNat args.val

/-- The name of an opcode. -/
def name : Opcode → String
  | getIniSetting => "get_ini_setting"
  | getIniString => "get_ini_string"
  | sqrt => "sqrt"
  | abs => "abs"
  | sin => "sin"
  | cos => "cos"
  | tan => "tan"
  | arctan => "arctan"
  | versionMajor => "sfall_ver_major"
  | versionMinor => "sfall_ver_minor"
  | versionBuild => "sfall_ver_build"
  | setArray => "set_array"
  | getArray => "get_array"
  | lenArray => "len_array"
  | tempArray => "temp_array"
  | atoi => "atoi"
  | atof => "atof"
  | substr => "substr"
  | strlen => "strlen"
  | sprintf => "sprintf"
  | charcode => "charcode"
  | typeOf => "typeof"
  | arrayKey => "get_array_key"
  | power => "^"
  | log => "log"
  | exponent => "exponent"
  | ceil => "ceil"
  | round => "round"
  | div => "div"
  | call 0 => "sfall_func0"
  | call 1 => "sfall_func1"
  | call 2 => "sfall_func2"
  | call 3 => "sfall_func3"
  | call 4 => "sfall_func4"
  | call 5 => "sfall_func5"
  | call 6 => "sfall_func6"
  | call 7 => "sfall_func7"
  | call 8 => "sfall_func8"

/-- The opcode with a number. -/
def ofCode? (code : UInt16) : Option Opcode := all.find? fun op => op.code == code

/-- The opcode with a name. -/
def ofName? (name : String) : Option Opcode := all.find? fun op => op.name == name

/-- The name of the opcode with a number, or a word for none. -/
def nameOfCode (code : UInt16) : String := ((ofCode? code).map Opcode.name).getD "unknown"

/-- The number of arguments that an opcode calls a named operation with. -/
def callArgs? : Opcode → Option Nat
  | call args => some args.val
  | _ => none

/-- The opcode that calls a named operation with so many arguments. -/
def ofArgs? (args : Nat) : Option Opcode := if h : args < 9 then some (call ⟨args, h⟩) else none

theorem mem_all (op : Opcode) : op ∈ all := by
  cases op with
  | call args => revert args; decide
  | _ => decide

/-- Different opcodes have different numbers. -/
theorem ofCode?_code (op : Opcode) : ofCode? op.code = some op := by
  have h : ∀ op ∈ all, ofCode? op.code = some op := by decide
  exact h op (mem_all op)

/-- Different opcodes have different names. -/
theorem ofName?_name (op : Opcode) : ofName? op.name = some op := by
  have h : ∀ op ∈ all, ofName? op.name = some op := by decide
  exact h op (mem_all op)

end Opcode

end StackScript
