import StackScript.Numeral

/-!
# Named operations

The operations that a script calls by name, with the numbers of arguments that each takes.

* `Operation.ofName?` finds an operation in `Operation.all` (`ofName?_name`).
-/

namespace StackScript

open Numeral

/-- An operation that is called by name. -/
inductive Operation where
  | floor
  | iniSection
  | iniSections
  | table
  | known
  | setIni
  | compare
  | find
  | format
  | toCase
  deriving DecidableEq, Repr

namespace Operation

/-- All operations, in the order in which scripts see them. -/
def all : List Operation :=
  [floor, iniSection, iniSections, table, known, setIni, compare, find, format, toCase]

/-- The name of an operation. -/
def name : Operation → String
  | floor => "floor2"
  | iniSection => "get_ini_section"
  | iniSections => "get_ini_sections"
  | table => "get_metarule_table"
  | known => "metarule_exist"
  | setIni => "set_ini_setting"
  | compare => "string_compare"
  | find => "string_find"
  | format => "string_format"
  | toCase => "string_to_case"

/-- The least number of arguments. -/
def minArgs : Operation → Nat
  | table => 0
  | floor | iniSections | known => 1
  | iniSection | setIni | compare | find | format | toCase => 2

/-- The greatest number of arguments. -/
def maxArgs : Operation → Nat
  | table => 0
  | floor | iniSections | known => 1
  | iniSection | setIni | toCase => 2
  | compare | find => 3
  | format => 8

/-- Whether an operation takes a number of arguments. -/
def accepts (op : Operation) (args : Nat) : Bool := op.minArgs ≤ args && args ≤ op.maxArgs

/-- The name with the numbers of arguments. -/
def display (op : Operation) : String :=
  op.name ++ "(" ++ decimalText op.minArgs ++ "..=" ++ decimalText op.maxArgs ++ ")"

/-- The operation with a name. -/
def ofName? (name : String) : Option Operation := all.find? fun op => op.name == name

/-- The names of all operations. -/
def names : List String := all.map name

theorem mem_all (op : Operation) : op ∈ all := by cases op <;> decide

/-- Different operations have different names. -/
theorem ofName?_name (op : Operation) : ofName? op.name = some op := by cases op <;> decide

/-- A name is listed exactly if it belongs to an operation. -/
theorem mem_names_iff {name : String} : name ∈ names ↔ (ofName? name).isSome := by
  simp [names, ofName?]

end Operation

end StackScript
