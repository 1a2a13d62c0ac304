import StackScript.Format.Template
import StackScript.Machine.Basic
import StackScript.Operation
import StackScript.Text.CodePage
import StackScript.Text.Slice

/-!
# Calling operations by name

An operation finds its arguments on the stack, the last one on top, and leaves one result in their
place; an operation without a result leaves -1.

* `Operation.run` does an operation.
* `Machine.call` takes the name from under the arguments, checks it and the number of arguments, and
  runs the operation.
-/

namespace StackScript

open Machine Text Numeral

namespace Operation

/-- The rounding down of a number. -/
def runFloor : Action Unit := do
  let x ← ofExcept (← pop).asFloat
  pushInt x.floor

/-- Stores texts as the elements of a list from an index on. -/
def storeTexts (id : Int32) : Nat → List String → Action Unit
  | _, [] => pure ()
  | i, text :: texts => do
    let value ← intern text
    setArray id (.int (Int32.ofNat i)) value
    storeTexts id (i + 1) texts

/-- Stores texts in a map under texts. -/
def storePairs (id : Int32) : List (String × String) → Action Unit
  | [] => pure ()
  | (key, value) :: pairs => do
    let key ← intern key
    let value ← intern value
    setArray id key value
    storePairs id pairs

/-- Puts a new list of texts on top. -/
def pushTexts (texts : List String) : Action Unit := do
  let id ← createArray (Int32.ofNat texts.length)
  storeTexts id 0 texts
  pushInt id

/-- The settings of a file, none if it cannot be read. -/
def settingsOf (file : String) : Action Config := do
  let m ← get
  match m.settings.load m.disk file with
  | .ok c => pure c
  | .error _ => pure {}

/-- A map from the keys of a section to their values. -/
def runIniSection : Action Unit := do
  let heading ← popText
  let file ← popText
  let id ← createArray (-1)
  let c ← settingsOf file
  storePairs id ((c.sections.get? heading).getD {}).entries
  pushInt id

/-- The list of the headings of a file. -/
def runIniSections : Action Unit := do
  let file ← popText
  let c ← settingsOf file
  pushTexts c.headings

/-- The list of the names of all operations. -/
def runTable : Action Unit := pushTexts names

/-- Whether a name is that of an operation. -/
def runKnown : Action Unit := do
  let name ← popText
  pushBool (ofName? name).isSome

/-- The text in which a value is written to a setting. -/
def settingText : Value → Action String
  | .string handle => textOf handle
  | v => do
    let n ← ofExcept v.asInt
    pure (decimalText n.toInt)

/-- Writes a setting, giving the reason if that fails. -/
def writeSetting (name value : String) : Action (Option Error) := fun m =>
  match m.settings.write m.disk name value with
  | (.ok (), disk) => .ok none { m with disk }
  | (.error e, disk) => .ok (some e) { m with disk }

/-- Writes a setting and logs a failure. -/
def runSetIni : Action Unit := do
  let value ← pop
  let name ← popText
  let text ← settingText value
  if let some e ← writeSetting name text then
    log ("set_ini_setting: unable to write '" ++ text ++ "' to '" ++ name ++ "': " ++ e.message)
  pushInt (-1)

/-- The equality of two texts up to case, under a code page where one is given. -/
def compareUnder (page : Option Int32) : Action Unit := do
  let second ← popText
  let first ← popText
  pushBool <| match page with
    | some n => (CodePage.ofNumber n).equal first second
    | none => equalFold first second

/-- The equality of two texts; a third argument is the number of a code page. -/
def runCompare (args : Nat) : Action Unit := do
  let page ← if args = 3 then some <$> popInt else pure none
  compareUnder page

/-- The place of one text in another from a start on, -1 if there is none. A start outside of the
text is logged. -/
def findFrom (start : Int32) : Action Unit := do
  let needle ← popText
  let haystack ← popText
  if start < 0 ∨ size haystack.toList ≤ start.toInt.toNat then
    log ("string_find: invalid start position " ++ decimalText start.toInt)
    pushInt (-1)
  else
    match indexFrom haystack needle start.toInt.toNat with
    | some i => pushInt (Int32.ofNat i)
    | none => pushInt (-1)

/-- The place of one text in another; a third argument is the start. -/
def runFind (args : Nat) : Action Unit := do
  let start ← if args = 3 then popInt else pure 0
  findFrom start

/-- A template run on the values after it. -/
def runFormat (args : Nat) : Action Unit := do
  let values ← popMany (args - 1)
  let template ← popText
  let m ← get
  pushText (Format.format m.text? template values)

/-- A text with its letters in one case; another case than 0 and 1 is logged. -/
def runToCase : Action Unit := do
  let case ← popInt
  let text ← popText
  if case = 1 then pushText (raise text)
  else if case = 0 then pushText (fold text)
  else
    log ("string_to_case: invalid case type " ++ decimalText case.toInt)
    pushText text

/-- Does an operation with so many arguments on the stack. -/
def run (op : Operation) (args : Nat) : Action Unit :=
  match op with
  | floor => runFloor
  | iniSection => runIniSection
  | iniSections => runIniSections
  | table => runTable
  | known => runKnown
  | setIni => runSetIni
  | compare => runCompare args
  | find => runFind args
  | format => runFormat args
  | toCase => runToCase

end Operation

namespace Machine

/-- The most arguments of a call. -/
def maxCallArgs : Nat := 8

/-- The operation with a name, if it takes so many arguments. -/
def resolve (name : String) (args : Nat) : Except Error Operation :=
  match Operation.ofName? name with
  | none => .error (.unknownOperation name)
  | some op =>
    if args ≤ maxCallArgs ∧ op.accepts args then .ok op
    else .error (.arityMismatch name args op.minArgs op.maxArgs)

/-- Runs an operation and checks that one result has taken the place of the arguments. -/
def runBalanced (op : Operation) (name : String) (args : Nat) : Action Unit := do
  let expected := (← get).depth - args + 1
  op.run args
  let found := (← get).depth
  if found ≠ expected then throw (.stackImbalance name expected found)

/-- Calls the operation whose name lies under so many arguments. -/
def call (args : Nat) : Action Unit := do
  let values ← popMany args
  let name ← popText
  pushMany values
  let op ← ofExcept (resolve name args)
  runBalanced op name args

end Machine

end StackScript
