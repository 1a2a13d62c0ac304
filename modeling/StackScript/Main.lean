import StackScript.CommandLine

/-!
# The program

The only part that touches files and streams. A run happens on a disk in memory; paths that it asks
for are read from the real disk until it asks for no more, then its output and its changes are
written out.
-/

namespace StackScript

/-- Whether a path can be opened. -/
def canOpen (path : String) : IO Bool := do
  try
    let _ ← IO.FS.Handle.mk path .read
    pure true
  catch _ => pure false

/-- The bytes of the file at a path, if it can be read. -/
def readBytes? (path : String) : IO (Option ByteArray) := do
  try
    pure (some (← IO.FS.readBinFile path))
  catch _ => pure none

/-- The location that a path names by its text alone. -/
def locationOf (path : String) : Location :=
  (Disk.names path).foldl
    (fun l name => if name = "." then l else if name = ".." then Disk.above l else l ++ [name])
    (Disk.origin path)

/-- The path of a location. -/
def pathOf (l : Location) : String :=
  match l with
  | "/" :: rest => "/" ++ "/".intercalate rest
  | l => "/".intercalate l

/-- Adds what the real disk has at a path: a file, a directory, or else the directory around it. -/
def fetch (d : Disk) (path : String) : IO Disk := do
  let l := locationOf path
  match ← readBytes? path with
  | some bytes => pure (d.addFile l bytes)
  | none =>
    if ← canOpen path then pure (d.addDirectory l)
    else if ← canOpen (pathOf l.dropLast) then pure (d.addDirectory l.dropLast)
    else pure d

/-- Runs until every path that the run asks for has been fetched. -/
partial def settle (program : String) (arguments : List String) (known : List String) (d : Disk) :
    IO (Report × Disk) := do
  let report := CommandLine.run program arguments d
  let new := (report.paths.filter fun path => !known.contains path).eraseDups
  if new.isEmpty then pure (report, d)
  else settle program arguments (known ++ new) (← new.foldlM fetch d)

/-- Writes the files that a run has changed. -/
def writeBack (before after : Disk) : IO Unit := do
  for (l, bytes) in after.files do
    if (before.contents? l).map ByteArray.toList ≠ some bytes.toList then
      IO.FS.writeBinFile (pathOf l) bytes

end StackScript

/-- Runs the program with its arguments. -/
def main (arguments : List String) : IO UInt32 := do
  let (report, disk) ← StackScript.settle "sfall-bridge" arguments [] {}
  IO.print report.out
  StackScript.writeBack disk report.disk
  IO.eprint report.err
  pure report.exitCode
