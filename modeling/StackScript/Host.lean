import StackScript.Script.Run

/-!
# Hosts

What the program that holds a machine asks of it: to put values on the stack and to take them, to
enter texts in the table, to do opcodes, calls by name and whole scripts, and to stop.

* `Request.act` does what is asked. It may fail, and what it did before it failed stays done.
* `session` serves requests one after the other. A host may go on after a failure.
-/

namespace StackScript.Host

open Machine

/-- What a host asks of a machine. -/
inductive Request where
  | push (value : Value)
  /-- Puts a text on the stack, which enters it in the table. -/
  | pushText (text : String)
  | pop
  | popInt
  | popFloat
  | popText
  | popPointer
  | intern (text : String)
  | execute (code : UInt16)
  | call (name : String) (args : List Value)
  | script (lines : List Script.Line)
  | stop (reason : Error)

/-- A script as a part of what a host does. -/
def runScript (lines : List Script.Line) : Action Unit := fun m =>
  match (Script.run lines m).error with
  | none => .ok () (Script.run lines m).machine
  | some e => .error e (Script.run lines m).machine

/-- Does what is asked; the values that the host gets are left out. -/
def Request.act : Request → Action Unit
  | push v => Machine.push v
  | pushText text => Machine.pushText text
  | pop => do
    let _ ← Machine.pop
    pure ()
  | popInt => do
    let _ ← Machine.popInt
    pure ()
  | popFloat => do
    let _ ← Machine.popFloat
    pure ()
  | popText => do
    let _ ← Machine.popText
    pure ()
  | popPointer => do
    let _ ← Machine.popPointer
    pure ()
  | intern text => do
    let _ ← Machine.intern text
    pure ()
  | execute code => Machine.execute code
  | call name args => callNamed name args
  | script lines => runScript lines
  | stop reason => modify (·.stop reason)

/-- The machine after a request, done or failed. -/
def serve (m : Machine) (r : Request) : Machine :=
  match r.act m with
  | .ok () m => m
  | .error _ m => m

/-- The machine after requests, one after the other. -/
def session (m : Machine) (rs : List Request) : Machine := rs.foldl serve m

theorem session_append (m : Machine) (rs rs' : List Request) :
    session m (rs ++ rs') = session (session m rs) rs' :=
  List.foldl_append

/-- A machine to which nothing has happened, with the room of its stack, the place of its settings
and the disk. -/
def fresh (capacity : Nat) (settings : SettingStore) (disk : Disk) : Machine :=
  { capacity, settings, disk }

end StackScript.Host
