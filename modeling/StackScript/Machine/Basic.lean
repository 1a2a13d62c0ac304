import StackScript.ArrayStore
import StackScript.Setting.Store

/-!
# The machine

The state in which operations run: an evaluation stack of bounded depth, the table of texts, the
arrays, the settings on disk and the debug log.

* An `Action` changes the state and may fail; what it did before it failed stays done.
* `Machine.pop_cons`, `Machine.push_of_lt` and their neighbours say what one stack operation does,
  `popMany_of_stack` and `pushMany_of_le` that several values keep their order.
* `text?_of_intern` and `text?_intern_of_text?` say that the table of texts only grows.
-/

namespace StackScript

/-- The state of a program. -/
structure Machine where
  /-- The values, the top one first. -/
  stack : List Value := []
  /-- The most values that the stack holds. -/
  capacity : Nat := 1024
  /-- The texts of string values; a handle is a position. -/
  strings : Array String := #[]
  arrays : ArrayStore := {}
  settings : SettingStore := {}
  disk : Disk := {}
  /-- The lines of the debug log. -/
  debug : Array String := #[]
  /-- Why the program stopped, if it has. -/
  stopped : Option Error := none

/-- A step that may change the state and may fail. -/
abbrev Action := EStateM Error Machine

namespace Machine

/-- The number of values on the stack. -/
def depth (m : Machine) : Nat := m.stack.length

/-- The text of a string value. -/
def text? (m : Machine) (handle : UInt32) : Option String := m.strings[handle.toNat]?

/-! ## The stack -/

/-- Takes the top value. -/
def pop : Action Value := fun m =>
  match m.stack with
  | [] => .error .stackUnderflow m
  | v :: vs => .ok v { m with stack := vs }

/-- Puts a value on top, if there is room. -/
def push (v : Value) : Action Unit := fun m =>
  if m.stack.length < m.capacity then .ok () { m with stack := v :: m.stack }
  else .error (.stackOverflow m.capacity) m

theorem pop_nil {m : Machine} (h : m.stack = []) : pop m = .error .stackUnderflow m := by
  simp [pop, h]

theorem pop_cons {m : Machine} {v : Value} {vs : List Value} (h : m.stack = v :: vs) :
    pop m = .ok v { m with stack := vs } := by
  simp [pop, h]

theorem push_of_lt {m : Machine} (v : Value) (h : m.stack.length < m.capacity) :
    push v m = .ok () { m with stack := v :: m.stack } := by
  simp [push, h]

theorem push_of_full {m : Machine} (v : Value) (h : m.capacity ≤ m.stack.length) :
    push v m = .error (.stackOverflow m.capacity) m := by
  simp [push, Nat.not_lt.mpr h]

/-- Puts an integer on top. -/
def pushInt (n : Int32) : Action Unit := push (.int n)

/-- Puts a float on top. -/
def pushFloat (x : Single) : Action Unit := push (.float x)

/-- Puts a truth value on top, as 1 or 0. -/
def pushBool (b : Bool) : Action Unit := pushInt (if b then 1 else 0)

/-- Takes a number as an integer. -/
def popInt : Action Int32 := do ofExcept (← pop).asInt

/-- Takes a number as a float. -/
def popFloat : Action Single := do ofExcept (← pop).asFloat

/-- Takes the top values, as many as asked for, in the order in which they were put there. -/
def popMany : Nat → Action (List Value)
  | 0 => pure []
  | n + 1 => do
    let v ← pop
    let vs ← popMany n
    pure (vs ++ [v])

/-- Puts values on top, the first one first. -/
def pushMany : List Value → Action Unit
  | [] => pure ()
  | v :: vs => do
    push v
    pushMany vs

/-- Values put on the stack lie there in reverse. -/
theorem pushMany_of_le {m : Machine} {vs : List Value}
    (h : m.stack.length + vs.length ≤ m.capacity) :
    pushMany vs m = .ok () { m with stack := vs.reverse ++ m.stack } := by
  induction vs generalizing m with
  | nil => rfl
  | cons v vs ih =>
    simp only [List.length_cons] at h
    have hv := push_of_lt v (show m.stack.length < m.capacity by omega)
    have := ih (m := { m with stack := v :: m.stack }) (by simp only [List.length_cons]; omega)
    simp only [pushMany, bind, EStateM.bind, hv, this]
    simp

/-- The top values come in the order in which they were put there. -/
theorem popMany_of_stack {m : Machine} {vs rest : List Value}
    (h : m.stack = vs.reverse ++ rest) :
    popMany vs.length m = .ok vs { m with stack := rest } := by
  generalize hr : vs.reverse = rs at h
  obtain rfl : rs.reverse = vs := by rw [← hr, List.reverse_reverse]
  clear hr
  rw [List.length_reverse]
  induction rs generalizing m with
  | nil =>
    obtain rfl : m.stack = rest := h
    rfl
  | cons r rs ih =>
    have hp : pop m = .ok r { m with stack := rs ++ rest } := pop_cons h
    have := ih (m := { m with stack := rs ++ rest }) rfl
    simp only [List.length_cons, popMany, bind, EStateM.bind, hp, this, List.reverse_cons]
    rfl

/-! ## Texts -/

/-- The string value of a text, which enters the table once. -/
def intern (text : String) : Action Value := fun m =>
  match m.strings.idxOf? text with
  | some i => .ok (.string (UInt32.ofNat i)) m
  | none => .ok (.string (UInt32.ofNat m.strings.size)) { m with strings := m.strings.push text }

theorem getElem?_of_idxOf? {texts : Array String} {text : String} {i : Nat}
    (h : texts.idxOf? text = some i) : texts[i]? = some text := by
  rw [Array.idxOf?_eq_map_finIdxOf?_val] at h
  obtain ⟨j, hj, rfl⟩ := Option.map_eq_some_iff.mp h
  rw [Array.getElem?_eq_getElem j.isLt]
  exact congrArg some (Array.finIdxOf?_eq_some_iff.mp hj).1

/-- The handle of a text names it. -/
theorem text?_of_intern {m m' : Machine} {text : String} {v : Value}
    (hs : m.strings.size < UInt32.size) (h : intern text m = .ok v m') :
    ∃ handle, v = .string handle ∧ m'.text? handle = some text := by
  unfold intern at h
  split at h
  · rename_i i hi
    simp only [EStateM.Result.ok.injEq] at h
    obtain ⟨rfl, rfl⟩ := h
    have hg := getElem?_of_idxOf? hi
    have hl : i < m.strings.size := (Array.getElem?_eq_some_iff.mp hg).1
    have ht : (UInt32.ofNat i).toNat = i := UInt32.toNat_ofNat_of_lt' (Nat.lt_trans hl hs)
    exact ⟨_, rfl, by rw [text?, ht, hg]⟩
  · simp only [EStateM.Result.ok.injEq] at h
    obtain ⟨rfl, rfl⟩ := h
    have ht : (UInt32.ofNat m.strings.size).toNat = m.strings.size :=
      UInt32.toNat_ofNat_of_lt' hs
    exact ⟨_, rfl, by simp only [text?, ht, Array.getElem?_push_size]⟩

/-- A handle that names a text goes on naming it when another text enters the table. -/
theorem text?_intern_of_text? {m m' : Machine} {text old : String} {v : Value} {handle : UInt32}
    (h : intern text m = .ok v m') (ho : m.text? handle = some old) :
    m'.text? handle = some old := by
  unfold intern at h
  split at h
  · simp only [EStateM.Result.ok.injEq] at h
    rw [← h.2, ho]
  · simp only [EStateM.Result.ok.injEq] at h
    have hl := (Array.getElem?_eq_some_iff.mp ho).1
    rw [← h.2, ← ho]
    simp only [text?]
    rw [Array.getElem?_push_lt hl, Array.getElem?_eq_getElem hl]

/-- The text of a handle. -/
def textOf (handle : UInt32) : Action String := fun m =>
  match m.text? handle with
  | some text => .ok text m
  | none => .error (.invalidHandle handle) m

/-- Puts a text on top. -/
def pushText (text : String) : Action Unit := do push (← intern text)

/-- Takes a text. -/
def popText : Action String := do
  match ← pop with
  | .string handle => textOf handle
  | v => throw (.typeMismatch "string" v.kind)

/-- Takes an object; the integer 0 stands for none. -/
def popPointer : Action UInt64 := do
  match ← pop with
  | .pointer address => pure address
  | .int n => if n = 0 then pure 0 else throw (.typeMismatch "pointer" (Value.int n).kind)
  | v => throw (.typeMismatch "pointer" v.kind)

/-- The text of any value. -/
def valueText (m : Machine) : Value → Except Error String
  | .string handle =>
    match m.text? handle with
    | some text => .ok text
    | none => .error (.invalidHandle handle)
  | v => .ok v.display

/-- The text of any value as it is printed. -/
def display (m : Machine) (v : Value) : String :=
  match m.valueText v with
  | .ok text => text
  | .error _ => "<bad string " ++ v.display ++ ">"

/-! ## Arrays -/

/-- Creates an array. -/
def createArray (length : Int32) : Action Int32 := fun m =>
  let (arrays, id) := m.arrays.create length
  .ok id { m with arrays }

/-- Sets an element of an array, if that is possible. -/
def setArray (id : Int32) (key value : Value) : Action Unit := fun m =>
  .ok () { m with arrays := m.arrays.set id key value }

/-- The value at a key of an array, 0 if there is none. -/
def getArray (m : Machine) (id : Int32) (key : Value) : Value :=
  ((m.arrays.get? id).bind (·.get? key)).getD (.int 0)

/-- The number of elements of an array, -1 if there is no such array. -/
def lenArray (m : Machine) (id : Int32) : Int32 :=
  match m.arrays.get? id with
  | some a => Int32.ofNat a.length
  | none => -1

/-- The key at a position of an array, 0 if there is none. -/
def arrayKey (m : Machine) (id position : Int32) : Value :=
  ((m.arrays.get? id).bind (·.keyAt? position)).getD (.int 0)

/-! ## Log and end -/

/-- Adds a line to the debug log. -/
def log (line : String) : Action Unit := fun m => .ok () { m with debug := m.debug.push line }

/-- The machine stopped for a reason, unless it has stopped before. -/
def stop (m : Machine) (reason : Error) : Machine :=
  { m with stopped := m.stopped.or (some reason) }

/-- Whether the machine has stopped. -/
def isStopped (m : Machine) : Bool := m.stopped.isSome

/-- The first reason stays. -/
theorem stopped_stop (m : Machine) (e e' : Error) :
    ((m.stop e).stop e').stopped = (m.stop e).stopped := by
  cases h : m.stopped <;> simp [stop, h]

end Machine

end StackScript
