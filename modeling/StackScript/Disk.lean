/-!
# Files

The part of a file system that a program sees: directories and the contents of files, addressed by
slash-separated paths from a working directory.

All files are regular files that may be read and written: there are no permissions, devices or
links, no limits on names, and nobody else changes a file. What the system does with a file that is
open for writing is a choice of the disk (`Disk.stops`), so that statements about all disks hold for
full disks, quotas and defective devices too. The choice may be any, but stays as it is while files
are written.

* `Disk.resolve` walks a path, `Disk.read` and `Disk.readText` give the contents of a file.
* `Disk.create` finds the file to open for writing, which empties it, and `Disk.write` writes it. A
  write that the system stops leaves the bytes that were written by then.
* Whatever comes of a write, no other file changes (`contents?_put_self`, `contents?_put_of_ne`).
-/

namespace StackScript

/-- Why the file system refuses. -/
inductive FileError where
  | notFound
  | notDirectory
  | isDirectory
  | notText
  | nulInName
  | noSpace
  | overQuota
  | tooLarge
  | deviceFailed
  deriving DecidableEq, Repr

/-- The text for a refusal. -/
def FileError.message : FileError → String
  | notFound => "No such file or directory (os error 2)"
  | notDirectory => "Not a directory (os error 20)"
  | isDirectory => "Is a directory (os error 21)"
  | notText => "stream did not contain valid UTF-8"
  | nulInName => "file name contained an unexpected NUL byte"
  | noSpace => "No space left on device (os error 28)"
  | overQuota => "Disk quota exceeded (os error 122)"
  | tooLarge => "File too large (os error 27)"
  | deviceFailed => "Input/output error (os error 5)"

/-- Where a file or directory is: the names from the working directory down, or from a first `/`
that stands for the root. -/
abbrev Location := List String

/-- What a system makes of files that it is given to write: why it stops to take bytes, and how many
of them it has taken by then. It takes all where it does not stop. -/
abbrev Stops := Location → (bytes : ByteArray) → Option (FileError × Fin bytes.size)

/-- The directories and files that a program sees. -/
structure Disk where
  directories : List Location := []
  files : List (Location × ByteArray) := []
  stops : Stops := fun _ _ => none

namespace Disk

/-- The contents of the file at a location. -/
def contents? (d : Disk) (l : Location) : Option ByteArray :=
  (d.files.find? fun f => f.1 == l).map Prod.snd

/-- Whether a location is a directory. The working directory, those above it and the root are. -/
def isDirectory (d : Disk) (l : Location) : Bool :=
  l.all (fun name => name == ".." || name == "/") || d.directories.contains l

/-- The directory that holds a location. -/
def above (l : Location) : Location :=
  match l.getLast? with
  | none => [".."]
  | some "/" => l
  | some ".." => l ++ [".."]
  | some _ => l.dropLast

/-- Goes from a location to a name in it. -/
def enter (d : Disk) (l : Location) (name : String) : Except FileError Location :=
  if !d.isDirectory l then
    .error (if (d.contents? l).isSome then .notDirectory else .notFound)
  else if name = "." then .ok l
  else if name = ".." then .ok (above l)
  else .ok (l ++ [name])

/-- Where a path begins. -/
def origin (path : String) : Location := if path.startsWith "/" then ["/"] else []

/-- The names along a path. -/
def names (path : String) : List String := (path.splitOn "/").filter (· ≠ "")

/-- The location that a path names; all but the last name must be directories. -/
def resolve (d : Disk) (path : String) : Except FileError Location :=
  if path = "" then .error .notFound
  else if path.toList.contains '\x00' then .error .nulInName
  else (names path).foldlM d.enter (origin path)

/-- The contents of the file that a path names. -/
def read (d : Disk) (path : String) : Except FileError ByteArray := do
  let l ← d.resolve path
  if d.isDirectory l then throw .isDirectory
  match d.contents? l with
  | none => throw .notFound
  | some bytes => if path.endsWith "/" then throw .notDirectory else pure bytes

/-- The text of the file that a path names. -/
def readText (d : Disk) (path : String) : Except FileError String := do
  let bytes ← d.read path
  match String.fromUTF8? bytes with
  | some text => pure text
  | none => throw .notText

/-- Whether a path names a file or a directory. -/
def holds (d : Disk) (path : String) : Bool :=
  match d.read path with
  | .ok _ | .error .isDirectory => true
  | .error _ => false

/-- The files with the contents of one replaced, or with a new one at the end. -/
def putFile (l : Location) (bytes : ByteArray) :
    List (Location × ByteArray) → List (Location × ByteArray)
  | [] => [(l, bytes)]
  | f :: fs => if f.1 == l then (l, bytes) :: fs else f :: putFile l bytes fs

/-- The disk with a file at a location. -/
def put (d : Disk) (l : Location) (bytes : ByteArray) : Disk :=
  { d with files := putFile l bytes d.files }

/-- The location of the file that a path names for writing. Its directory must be there. -/
def create (d : Disk) (path : String) : Except FileError Location := do
  let l ← d.resolve path
  if d.isDirectory l || path.endsWith "/" then throw .isDirectory
  if !d.isDirectory (above l) then throw .notFound
  pure l

/-- Creates or replaces the file that a path names, and gives the disk after that, also where it
fails. The file is empty once it is open, and takes the bytes in their order. -/
def write (d : Disk) (path : String) (bytes : ByteArray) : Except FileError Unit × Disk :=
  match d.create path with
  | .error e => (.error e, d)
  | .ok l =>
    match d.stops l bytes with
    | none => (.ok (), d.put l bytes)
    | some (e, n) => (.error e, d.put l (bytes.extract 0 n))

/-- The disk with a directory and those that hold it. -/
def addDirectory (d : Disk) (l : Location) : Disk :=
  let parts := (List.range l.length).map fun n => l.take (n + 1)
  { d with directories := d.directories ++ parts.filter fun p => !d.isDirectory p }

/-- The disk with a file and the directories that hold it. -/
def addFile (d : Disk) (l : Location) (bytes : ByteArray) : Disk :=
  (d.addDirectory l.dropLast).put l bytes

/-- A file that was put at a location is there. -/
theorem contents?_put_self (d : Disk) (l : Location) (bytes : ByteArray) :
    (d.put l bytes).contents? l = some bytes := by
  simp only [contents?, put]
  induction d.files with
  | nil => simp [putFile]
  | cons f fs ih =>
    rw [putFile]
    by_cases h : f.1 == l
    · simp [h]
    · simp [h, ih]

/-- A file put at a location leaves those at other locations alone. -/
theorem contents?_put_of_ne (d : Disk) {l l' : Location} (bytes : ByteArray) (h : l ≠ l') :
    (d.put l bytes).contents? l' = d.contents? l' := by
  simp only [contents?, put]
  induction d.files with
  | nil => simp [putFile, h]
  | cons f fs ih =>
    rw [putFile]
    by_cases hf : f.1 = l
    · simp [hf, h]
    · by_cases hf' : f.1 = l'
      · simp [hf', Ne.symm h]
      · simpa [hf, hf', List.find?_cons] using ih

end Disk

end StackScript
