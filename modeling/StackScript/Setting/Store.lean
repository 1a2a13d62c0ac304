import StackScript.Config
import StackScript.Disk
import StackScript.Numeral
import StackScript.Setting.Triplet

/-!
# Settings on disk

Single settings are read from and written to settings files. A file name is looked up under a base
directory first and then as it stands; the files of the system are never looked up under the base.

* `SettingStore.locate` finds the file, `load?` its settings.
* `getText`, `getInt` and `write` read and write one setting by its name. `setText` and `setInt`
  give the disk after a write that did not fail.
-/

namespace StackScript

open Text

/-- The settings files as seen from a base directory, if there is one. -/
structure SettingStore where
  base : Option String := none
  deriving DecidableEq, Repr

namespace SettingStore

/-- The store with a base directory, written without slashes at its end; none if nothing is left. -/
def ofBase (base : Option String) : SettingStore :=
  let trimmed := base.map fun path =>
    String.ofList (path.toList.reverse.dropWhile fun c => c == '/' || c == '\\').reverse
  ⟨trimmed.filter (· ≠ "")⟩

/-- The files that are accessed without the base directory. -/
def systemFiles : List String := ["ddraw.ini", "f2_res.ini"]

/-- Whether a file name is one of `systemFiles` up to case. -/
def isSystemFile (file : String) : Bool := systemFiles.any (equalFold · file)

/-- A file name under a directory; a name that begins at the root stands for itself. -/
def join (directory file : String) : String :=
  if file.startsWith "/" then file else directory ++ "/" ++ file

/-- The paths at which a file is looked for, in order. -/
def candidates (s : SettingStore) (file : String) : List String :=
  match s.base with
  | some directory => if isSystemFile file then [file] else [join directory file, file]
  | none => [file]

/-- The settings in the file that a path names. -/
def readConfig? (d : Disk) (path : String) : Option Config :=
  match d.readText path with
  | .ok text => some (Config.parse text)
  | .error _ => none

/-- The first of the paths that holds settings, with these; the last path if none does. -/
def firstReadable (d : Disk) (last : String) : List String → String × Option Config
  | [] => (last, none)
  | path :: paths =>
    match readConfig? d path with
    | some c => (path, some c)
    | none => firstReadable d path paths

/-- Where a file is read from and what it holds. -/
def locate (s : SettingStore) (d : Disk) (file : String) : String × Option Config :=
  firstReadable d file (s.candidates file)

/-- The settings of a file. -/
def load (s : SettingStore) (d : Disk) (file : String) : Except Error Config :=
  match s.locate d file with
  | (_, some c) => .ok c
  | (path, none) => .error (.storageUnavailable path)

/-- The value of a setting as a text of less than `size` bytes, empty where there is none. -/
def getText (s : SettingStore) (d : Disk) (name : String) (size : Nat) : Except Error String := do
  let t ← Triplet.parse name
  let found := (s.locate d t.file).2.bind (·.get? t.heading t.key)
  pure (truncate (found.getD "") (size - 1))

/-- The most bytes of a value that are read as an integer. -/
def maxIntText : Nat := 19

/-- The value of a setting as an integer. -/
def getInt (s : SettingStore) (d : Disk) (name : String) : Except Error Int32 := do
  let t ← Triplet.parse name
  let c ← s.load d t.file
  match c.get? t.heading t.key with
  | none => throw (.keyNotFound name)
  | some value => pure (Numeral.leadingInt (truncate value maxIntText))

/-- Gives a setting a value, and gives the disk after that, also where it fails. A file that cannot
be read is begun anew. -/
def write (s : SettingStore) (d : Disk) (name value : String) : Except Error Unit × Disk :=
  match Triplet.parse name with
  | .error e => (.error e, d)
  | .ok t =>
    let (path, found) := s.locate d t.file
    let c := (found.getD {}).set t.heading t.key value
    let (outcome, d) := d.write path c.render.toUTF8
    (outcome.mapError fun e => .io e.message, d)

/-- The disk after a setting was given a value, if nothing failed. -/
def setText (s : SettingStore) (d : Disk) (name value : String) : Except Error Disk :=
  match s.write d name value with
  | (.ok (), d) => .ok d
  | (.error e, _) => .error e

/-- The disk after a setting was given an integer, if nothing failed. -/
def setInt (s : SettingStore) (d : Disk) (name : String) (value : Int32) : Except Error Disk :=
  s.setText d name (Numeral.decimalText value.toInt)

end SettingStore

end StackScript
