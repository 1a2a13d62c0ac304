import Mathlib
import StackScript.Machine.Step

/-!
# What operations mean

The operations of two or more arguments as functions of their arguments, in the order of the call
and without a stack.

* `Opcode.signatures` and `Operation.signatures` list the kinds of arguments that they take.
* `Opcode.meaning` and `Operation.meaning` give the results, with the machine beside its stack: what
  is stored, written, logged or entered in the table of texts.
* `textNamed?_interned`: a text that has a handle is named by the value that it gets. All other
  values name what they named, so that arguments stay of their kind (`Takes.interned`).

That opcodes and calls compute these functions is in `Proofs/Machine/CallOrder.lean`.
-/

namespace StackScript

open Text Numeral

namespace Value

/-- A number as an integer, without its fraction. -/
def int? (v : Value) : Option Int32 := v.asInt.toOption

/-- A number as a float. -/
def single? (v : Value) : Option Single := v.asFloat.toOption

end Value

namespace Machine

/-! ## Texts -/

/-- The text that a value names. -/
def textNamed? (m : Machine) : Value → Option String
  | .string handle => m.text? handle
  | _ => none

/-- The machine with a text in its table, and the value that names the text. -/
def interned (m : Machine) (text : String) : Machine × Value :=
  match m.strings.idxOf? text with
  | some i => (m, .string (UInt32.ofNat i))
  | none =>
    ({ m with strings := m.strings.push text }, .string (UInt32.ofNat m.strings.size))

/-- Whether the place of a text in the table, or the one that it would get, has a handle. -/
def HasHandle (m : Machine) (text : String) : Prop :=
  (m.strings.idxOf? text).getD m.strings.size < UInt32.size

variable {m : Machine}

theorem intern_eq (m : Machine) (text : String) :
    intern text m = .ok (m.interned text).2 (m.interned text).1 := by
  unfold intern interned
  cases m.strings.idxOf? text <;> rfl

theorem capacity_interned (m : Machine) (text : String) :
    (m.interned text).1.capacity = m.capacity := by
  unfold interned
  split <;> rfl

theorem stopped_interned (m : Machine) (text : String) :
    (m.interned text).1.stopped = m.stopped := by
  unfold interned
  split <;> rfl

theorem stack_interned (m : Machine) (text : String) : (m.interned text).1.stack = m.stack := by
  unfold interned
  split <;> rfl

theorem debug_interned (m : Machine) (text : String) : (m.interned text).1.debug = m.debug := by
  unfold interned
  split <;> rfl

/-- As long as there is a handle for one more text, every text has one. -/
theorem hasHandle_of_lt (text : String) (h : m.strings.size < UInt32.size) : m.HasHandle text := by
  unfold HasHandle
  cases hi : m.strings.idxOf? text with
  | some i =>
    obtain ⟨hlt, -⟩ := Array.getElem?_eq_some_iff.mp (getElem?_of_idxOf? hi)
    exact Nat.lt_trans hlt h
  | none => exact h

/-- A text that got a handle goes on having one. -/
theorem HasHandle.interned {text : String} (h : m.HasHandle text) :
    (m.interned text).1.HasHandle text := by
  unfold HasHandle at h ⊢
  unfold Machine.interned
  cases hi : m.strings.idxOf? text with
  | some i =>
    rw [hi] at h
    rwa [hi]
  | none =>
    rw [hi] at h
    cases hj : (m.strings.push text).idxOf? text with
    | none => exact absurd (Array.mem_push_self) (Array.idxOf?_eq_none_iff.mp hj)
    | some j =>
      have hlt := (Array.getElem?_eq_some_iff.mp (getElem?_of_idxOf? hj)).1
      rw [Array.size_push] at hlt
      exact lt_of_le_of_lt (Nat.le_of_lt_succ hlt) h

theorem textNamed?_interned_of_textNamed? {v : Value} {old : String} (text : String)
    (h : m.textNamed? v = some old) : (m.interned text).1.textNamed? v = some old := by
  cases v with
  | string handle => exact text?_intern_of_text? (intern_eq m text) h
  | int n | float x | pointer address => cases h

theorem textNamed?_of_getElem? {i : Nat} {text : String} (hi : i < UInt32.size)
    (h : m.strings[i]? = some text) : m.textNamed? (.string (UInt32.ofNat i)) = some text := by
  have ht : (UInt32.ofNat i).toNat = i := UInt32.toNat_ofNat_of_lt' hi
  rw [textNamed?, text?, ht, h]

/-- The value of a text that got a handle names it. -/
theorem textNamed?_interned {text : String} (h : m.HasHandle text) :
    (m.interned text).1.textNamed? (m.interned text).2 = some text := by
  unfold HasHandle at h
  unfold interned
  cases hi : m.strings.idxOf? text with
  | some i =>
    rw [hi] at h
    exact textNamed?_of_getElem? h (getElem?_of_idxOf? hi)
  | none =>
    rw [hi] at h
    exact textNamed?_of_getElem? h Array.getElem?_push_size

/-! ## Arguments -/

/-- What an operation asks of an argument. -/
inductive Kind where
  | number
  | integer
  /-- A value that names a text. -/
  | text
  /-- Whatever can be written to a setting: a number or a text. -/
  | written
  | any
  deriving DecidableEq, Repr

/-- Whether a value is of a kind. -/
def IsOf (m : Machine) (v : Value) : Kind → Prop
  | .number => v.isInt ∨ v.isFloat
  | .integer => v.isInt
  | .text => (m.textNamed? v).isSome
  | .written => v.isInt ∨ v.isFloat ∨ (m.textNamed? v).isSome
  | .any => True

/-- Whether arguments are of the kinds that one of some signatures asks for. -/
def Takes (m : Machine) (signatures : List (List Kind)) (args : List Value) : Prop :=
  ∃ kinds ∈ signatures, List.Forall₂ m.IsOf args kinds

theorem exists_of_number {v : Value} (h : m.IsOf v .number) :
    ∃ n x, v.int? = some n ∧ v.single? = some x := by
  cases v with
  | int n => exact ⟨n, _, rfl, rfl⟩
  | float x => exact ⟨_, x, rfl, rfl⟩
  | string handle | pointer address => rcases h with h | h <;> cases h

theorem isFloat_of_number {v : Value} (h : m.IsOf v .number) : v.isFloat = !v.isInt := by
  cases v with
  | int n | float x => rfl
  | string handle | pointer address => rcases h with h | h <;> cases h

theorem exists_of_text {v : Value} (h : m.IsOf v .text) : ∃ text, m.textNamed? v = some text :=
  Option.isSome_iff_exists.mp h

theorem takes_cons_iff {kinds : List Kind} {signatures : List (List Kind)} {args : List Value} :
    m.Takes (kinds :: signatures) args ↔
      List.Forall₂ m.IsOf args kinds ∨ m.Takes signatures args := by
  simp [Takes]

theorem not_takes_nil (args : List Value) : ¬ m.Takes [] args := by
  simp [Takes]

theorem takes_pair {k l : Kind} {args : List Value} (h : m.Takes [[k, l]] args) :
    ∃ v w, args = [v, w] ∧ m.IsOf v k ∧ m.IsOf w l := by
  rcases takes_cons_iff.mp h with h | h
  · obtain _ | ⟨hv, _ | ⟨hw, _ | _⟩⟩ := h
    exact ⟨_, _, rfl, hv, hw⟩
  · exact absurd h (not_takes_nil args)

theorem takes_triple {j k l : Kind} {args : List Value} (h : m.Takes [[j, k, l]] args) :
    ∃ u v w, args = [u, v, w] ∧ m.IsOf u j ∧ m.IsOf v k ∧ m.IsOf w l := by
  rcases takes_cons_iff.mp h with h | h
  · obtain _ | ⟨hu, _ | ⟨hv, _ | ⟨hw, _ | _⟩⟩⟩ := h
    exact ⟨_, _, _, rfl, hu, hv, hw⟩
  · exact absurd h (not_takes_nil args)

theorem takes_or {kinds kinds' : List Kind} {args : List Value} (h : m.Takes [kinds, kinds'] args) :
    m.Takes [kinds] args ∨ m.Takes [kinds'] args :=
  (takes_cons_iff.mp h).imp_left fun h => takes_cons_iff.mpr (.inl h)

/-- Arguments stay of their kind when a text enters the table. -/
theorem IsOf.interned {v : Value} {kind : Kind} (text : String) (h : m.IsOf v kind) :
    (m.interned text).1.IsOf v kind := by
  have ht : (m.textNamed? v).isSome → ((m.interned text).1.textNamed? v).isSome := by
    intro ht
    obtain ⟨old, ho⟩ := Option.isSome_iff_exists.mp ht
    rw [textNamed?_interned_of_textNamed? text ho]
    rfl
  cases kind with
  | number | integer | any => exact h
  | text => exact ht h
  | written => exact h.imp_right (Or.imp_right ht)

theorem Takes.interned {signatures : List (List Kind)} {args : List Value} (text : String)
    (h : m.Takes signatures args) : (m.interned text).1.Takes signatures args := by
  obtain ⟨kinds, hk, hf⟩ := h
  exact ⟨kinds, hk, hf.imp fun _ _ hv => hv.interned text⟩

end Machine

open Machine

/-! ## Opcodes -/

namespace Opcode

/-- The kinds of arguments of the opcodes that take two or more. -/
def signatures : Opcode → List (List Kind)
  | arctan | power | div | tempArray | arrayKey => [[.number, .number]]
  | substr => [[.text, .number, .number]]
  | sprintf => [[.text, .any]]
  | setArray => [[.number, .any, .any]]
  | getArray => [[.number, .any], [.text, .integer]]
  | _ => []

/-- What an opcode makes of its arguments: the machine beside its stack, and the results. -/
def meaning (m : Machine) : Opcode → List Value → Option (Machine × List Value)
  | arctan, [y, x] => do
    pure (m, [.float ((← y.single?).atan2 (← x.single?))])
  | power, [base, degree] => do
    let x := (← base.single?).pow (← degree.single?)
    pure (m, [if base.isInt && degree.isInt then .int x.toInt else .float x])
  | div, [dividend, divisor] => do
    let d ← divisor.single?
    if d.isZero then pure ({ m with debug := m.debug.push "Division by zero" }, [.int 0])
    else if dividend.isInt && divisor.isInt then
      pure (m, [.int (divUnsigned (← dividend.int?) (← divisor.int?))])
    else pure (m, [.float ((← dividend.single?).div d)])
  | substr, [text, start, length] => do
    let part := slice (← m.textNamed? text) (← start.int?) (← length.int?)
    pure ((m.interned part).1, [(m.interned part).2])
  | sprintf, [template, value] => do
    let text := Format.format m.text? (← m.textNamed? template) [value]
    pure ((m.interned text).1, [(m.interned text).2])
  | setArray, [id, key, value] => do
    pure ({ m with arrays := m.arrays.set (← id.int?) key value }, [])
  | getArray, [.string handle, .int position] => do
    let text := byteAt (← m.text? handle) position
    pure ((m.interned text).1, [(m.interned text).2])
  | getArray, [id, key] => do pure (m, [m.getArray (← id.int?) key])
  | tempArray, [length, _flags] => do
    let length ← length.int?
    pure ({ m with arrays := (m.arrays.create length).1 }, [.int (m.arrays.create length).2])
  | arrayKey, [id, position] => do pure (m, [m.arrayKey (← id.int?) (← position.int?)])
  | _, _ => none

end Opcode

/-! ## Named operations -/

namespace Operation

/-- The kinds of arguments of the operations that take two or more. -/
def signatures : Operation → List (List Kind)
  | iniSection => [[.text, .text]]
  | setIni => [[.text, .written]]
  | compare | find => [[.text, .text], [.text, .text, .number]]
  | format => (List.range 7).map fun k => .text :: List.replicate (k + 1) .any
  | toCase => [[.text, .number]]
  | _ => []

/-- The settings under a heading of a file, none if the file cannot be read. -/
def settingsUnder (m : Machine) (file heading : String) : List (String × String) :=
  match m.settings.load m.disk file with
  | .ok c => ((c.sections.get? heading).getD {}).entries
  | .error _ => []

/-- The machine with a setting in a map, both its key and its value as texts. -/
def withSetting (id : Int32) (m : Machine) (setting : String × String) : Machine :=
  let (m, key) := m.interned setting.1
  let (m, value) := m.interned setting.2
  { m with arrays := m.arrays.set id key value }

/-- The text in which a value is written to a setting. -/
def writtenText? (m : Machine) : Value → Option String
  | .string handle => m.text? handle
  | v => v.int?.map fun n => decimalText n.toInt

theorem exists_of_written {m : Machine} {v : Value} (h : m.IsOf v .written) :
    ∃ text, writtenText? m v = some text := by
  cases v with
  | int n | float x => exact ⟨_, rfl⟩
  | string handle =>
    rcases h with h | h | h
    · cases h
    · cases h
    · exact Option.isSome_iff_exists.mp h
  | pointer address => rcases h with h | h | h <;> cases h

/-- The machine after a setting was written, or the failure logged. -/
def afterWrite (m : Machine) (name text : String) : Machine :=
  match m.settings.write m.disk name text with
  | (.ok (), disk) => { m with disk }
  | (.error e, disk) =>
    { m with
      disk
      debug := m.debug.push ("set_ini_setting: unable to write '" ++ text ++ "' to '" ++ name ++
        "': " ++ e.message) }

/-- The place of one text in another from a start on, -1 if there is none or the start is outside of
the text, which is logged. -/
def place (m : Machine) (haystack needle : String) (start : Int32) : Machine × Value :=
  if 0 ≤ start.toInt ∧ start.toInt < size haystack.toList then
    (m, .int (((indexFrom haystack needle start.toInt.toNat).map Int32.ofNat).getD (-1)))
  else
    ({ m with debug := m.debug.push ("string_find: invalid start position " ++
      decimalText start.toInt) }, .int (-1))

/-- A truth value as an integer. -/
def truth (b : Bool) : Value := .int (if b then 1 else 0)

/-- What an operation makes of its arguments: the machine beside its stack, and the result. -/
def meaning (m : Machine) : Operation → List Value → Option (Machine × Value)
  | iniSection, [file, heading] => do
    let settings := settingsUnder m (← m.textNamed? file) (← m.textNamed? heading)
    let (arrays, id) := m.arrays.create (-1)
    pure (settings.foldl (withSetting id) { m with arrays }, .int id)
  | setIni, [name, value] => do
    pure (afterWrite m (← m.textNamed? name) (← writtenText? m value), .int (-1))
  | compare, [a, b] => do
    pure (m, truth (equalFold (← m.textNamed? a) (← m.textNamed? b)))
  | compare, [a, b, page] => do
    let page := CodePage.ofNumber (← page.int?)
    pure (m, truth (page.equal (← m.textNamed? a) (← m.textNamed? b)))
  | find, [haystack, needle] => do
    pure (place m (← m.textNamed? haystack) (← m.textNamed? needle) 0)
  | find, [haystack, needle, start] => do
    pure (place m (← m.textNamed? haystack) (← m.textNamed? needle) (← start.int?))
  | format, template :: values => do
    pure (m.interned (Format.format m.text? (← m.textNamed? template) values))
  | toCase, [text, case] => do
    let text ← m.textNamed? text
    let case ← case.int?
    if case = 1 then pure (m.interned (raise text))
    else if case = 0 then pure (m.interned (fold text))
    else
      let line := "string_to_case: invalid case type " ++ decimalText case.toInt
      pure ({ m with debug := m.debug.push line }.interned text)
  | _, _ => none

end Operation

end StackScript
