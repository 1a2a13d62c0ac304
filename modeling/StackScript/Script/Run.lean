import StackScript.Machine.Step
import StackScript.Script.Parse

/-!
# Running scripts

* `Command.run` does one command and gives the text that it prints.
* `run` does commands until one fails.
-/

namespace StackScript.Script

open Machine

/-- The value of a literal; a text enters the table. -/
def Literal.toValue : Literal → Action Value
  | .int n => pure (.int n)
  | .float x => pure (.float x)
  | .text s => intern s

/-- Does a command and gives what it prints. -/
def Command.run : Command → Action String
  | .push value => do
    Machine.push (← value.toValue)
    pure ""
  | .op code => do
    execute code
    pure ""
  | .call name args => do
    callNamed name (← args.mapM Literal.toValue)
    pure ""
  | .print => do
    let value ← pop
    pure ((← get).display value ++ "\n")

/-- What a run has come to: the machine, all that was printed, and the error that ended it. -/
structure Outcome where
  machine : Machine
  printed : String
  error : Option Error

/-- Does commands until one fails. -/
def run : List Line → Machine → Outcome
  | [], m => ⟨m, "", none⟩
  | line :: lines, m =>
    match line.command.run m with
    | .error e m => ⟨m, "", some e⟩
    | .ok printed m =>
      let rest := run lines m
      { rest with printed := printed ++ rest.printed }

end StackScript.Script
