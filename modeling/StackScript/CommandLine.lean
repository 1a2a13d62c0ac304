import StackScript.Options
import StackScript.Script.Run

/-!
# The command line

A run reads options and a script, does its commands and reports what it printed.

* `CommandLine.run` does all this on a disk in memory.
* `Report.paths` lists the paths on which a run may depend; a disk that agrees with the real one
  there is as good as the whole.
-/

namespace StackScript

/-- What a run leaves behind. -/
structure Report where
  exitCode : UInt32 := 0
  /-- The text on standard output. -/
  out : String := ""
  /-- The text on standard error. -/
  err : String := ""
  disk : Disk
  /-- The paths that the run may have looked up. -/
  paths : List String := []

namespace CommandLine

/-- The options file that is read without being asked for. -/
def defaultOptions : String := "sfall-bridge.toml"

/-- How to use the program with a name. -/
def usage (program : String) : String :=
  "sfall-bridge - run extension opcode scripts against an in-memory interpreter\n\nUsage: " ++
    program ++ " <script_file> [--config settings.toml]\n\nWithout --config, " ++ defaultOptions ++
    " is read from the working directory if present.\n" ++
    "Set RUST_LOG=debug to trace every opcode.\n"

/-- What the arguments ask for. -/
inductive Request where
  | help
  | run (script : String) (options : Option String)
  | wrong (arguments : List String)
  deriving DecidableEq, Repr

/-- The request in the arguments. What follows the options file is not looked at. -/
def Request.ofArguments : List String → Request
  | [] => .help
  | script :: rest =>
    if script = "--help" ∨ script = "-h" then .help
    else
      match rest with
      | [] => .run script none
      | "--config" :: options :: _ => .run script (some options)
      | rest => .wrong rest

/-- The options that a request asks for. -/
def loadOptions (d : Disk) : Option String → Except Error Options
  | some path => Options.load d path
  | none => Options.loadOrDefault d defaultOptions

/-- A fresh machine with options. -/
def machine (o : Options) (d : Disk) : Machine :=
  { capacity := o.stackSize, settings := SettingStore.ofBase o.basePath, disk := d }

/-- The paths that a machine may have looked up: those of the files named by its texts. -/
def settingPaths (m : Machine) : List String :=
  m.strings.toList.flatMap fun text =>
    m.settings.candidates text ++
      match Triplet.ofChars? text.toList with
      | some t => m.settings.candidates t.file
      | none => []

/-- The report of a run that ends with an error before it begins. -/
def refuse (d : Disk) (paths : List String) (text : String) : Report :=
  { exitCode := 1, err := text, disk := d, paths }

/-- Runs the commands of a script text. -/
def runText (o : Options) (d : Disk) (paths : List String) (text : String) : Report :=
  match Script.parse text with
  | .error fault => refuse d paths ("Error: " ++ fault.toError.message ++ "\n")
  | .ok commands =>
    let outcome := Script.run commands (machine o d)
    { exitCode := if outcome.error.isSome then 1 else 0
      out := outcome.printed
      err := match outcome.error with
        | some e => "\nError during execution: " ++ e.message ++ "\n"
        | none => ""
      disk := outcome.machine.disk
      paths := paths ++ settingPaths outcome.machine }

/-- Does what the arguments ask for. -/
def run (program : String) (arguments : List String) (d : Disk) : Report :=
  match Request.ofArguments arguments with
  | .help => { out := usage program, disk := d }
  | .wrong rest =>
    { refuse d [] ("Error: Unexpected arguments: " ++ " ".intercalate rest ++ "\n") with
      out := usage program }
  | .run script options =>
    let paths := [options.getD defaultOptions, script]
    match loadOptions d options with
    | .error e => refuse d paths ("Error: " ++ e.message ++ "\n")
    | .ok o =>
      match d.readText script with
      | .error e =>
        refuse d paths ("Error: Cannot read script '" ++ script ++ "': " ++ e.message ++ "\n")
      | .ok text => runText o d paths text

end CommandLine

end StackScript
