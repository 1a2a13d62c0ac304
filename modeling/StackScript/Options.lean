import StackScript.Disk
import StackScript.Error
import StackScript.Options.Document

/-!
# Options of a run

What a document of options says about a run: the base directory of settings files, the depth of the
stack, and how much is logged.

* `Options.parse` accepts documents with these keys alone, each at most once.
-/

namespace StackScript

/-- The options of a run. -/
structure Options where
  /-- The directory in which settings files are looked for first. -/
  basePath : Option String := none
  stackSize : Nat := 1024
  /-- How much is logged. -/
  logLevel : Option String := none
  deriving DecidableEq, Repr

namespace Options

open Document

/-- Options with a key set to a value, if there is such a key and the value is of its kind. -/
def set? (o : Options) : String × Item → Option Options
  | ("ini_base_path", .text s) => some { o with basePath := some s }
  | ("log_level", .text s) => some { o with logLevel := some s }
  | ("stack_size", .integer n) => if n < 0 then none else some { o with stackSize := n.toNat }
  | _ => none

/-- The options that keys and values say; no key may come twice. -/
def ofEntries? (es : List (String × Item)) : Option Options :=
  if (es.map Prod.fst).Nodup then es.foldlM set? {} else none

/-- The options that a document says. The stack must have room. -/
def parse (text : String) : Except Error Options :=
  match (Document.parse? text).bind ofEntries? with
  | none => .error .malformedOptions
  | some o => if o.stackSize = 0 then .error (.options "stack_size must be at least 1") else .ok o

/-- The options in a file. -/
def load (d : Disk) (path : String) : Except Error Options :=
  match d.readText path with
  | .error e => .error (.io e.message)
  | .ok text => parse text

/-- The options in a file, or those of an empty document where there is no such file. -/
def loadOrDefault (d : Disk) (path : String) : Except Error Options :=
  if d.holds path then load d path else .ok {}

end Options

end StackScript
