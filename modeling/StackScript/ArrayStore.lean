import StackScript.Value

/-!
# Arrays

The arrays that scripts create and address by number. A list is indexed by integers and grows when
an element past its end is set; a map takes any value as a key and keeps its keys in the order in
which they came.

* `ValueArray` is one array; `ArrayStore` holds all, numbered from 1 in the order of creation.
* `ArrayStore.get?_set_of_ne` says that setting an element leaves the other arrays alone.
-/

namespace StackScript

/-- An array of values. -/
inductive ValueArray where
  | list (items : Array Value)
  /-- Keys with their values; a key is a value of the same kind with the same bits. -/
  | map (entries : List (Value × Value))
  deriving DecidableEq, Repr

namespace ValueArray

/-- The most elements of a list. -/
def maxList : Nat := 0x100000

/-- What an element of a list is until it is set. -/
def blank : Value := .int 0

/-- The number of elements. -/
def length : ValueArray → Nat
  | list items => items.size
  | map entries => entries.length

/-- Whether an array is a map. -/
def isMap : ValueArray → Bool
  | list _ => false
  | map _ => true

/-- The index that a key names, if it is a number that is not negative. -/
def index? (key : Value) : Option Nat :=
  match key.asInt with
  | .ok n => if n < 0 then none else some n.toInt.toNat
  | .error _ => none

/-- The value at a key. -/
def get? (a : ValueArray) (key : Value) : Option Value :=
  match a with
  | list items => (index? key).bind (items[·]?)
  | map entries => (entries.find? fun e => e.1 == key).map Prod.snd

/-- The key at a position. -/
def keyAt? (a : ValueArray) (position : Int32) : Option Value :=
  if position < 0 then none
  else
    let n := position.toInt.toNat
    match a with
    | list items => if n < items.size then some (.int position) else none
    | map entries => (entries[n]?).map Prod.fst

/-- The elements with their keys, in order. -/
def entries : ValueArray → List (Value × Value)
  | list items => items.toList.zipIdx.map fun (v, i) => (.int (Int32.ofNat i), v)
  | map entries => entries

/-- A list with an element set; new elements before it are blank. -/
def setItem (items : Array Value) (n : Nat) (value : Value) : Array Value :=
  if h : n < items.size then items.set n value
  else (items ++ Array.replicate (n - items.size) blank).push value

/-- A map with the value of a key set; a new key comes last. -/
def setEntry (key value : Value) : List (Value × Value) → List (Value × Value)
  | [] => [(key, value)]
  | e :: es => if e.1 == key then (key, value) :: es else e :: setEntry key value es

/-- The array with a value at a key, unless the key is no index of a list. -/
def set? (a : ValueArray) (key value : Value) : Option ValueArray :=
  match a with
  | list items =>
    match index? key with
    | some n => if n < maxList then some (.list (setItem items n value)) else none
    | none => none
  | map entries => some (.map (setEntry key value entries))

/-- A new array: blank elements, or a map for a negative length; `none` if it is too long. -/
def create? (length : Int32) : Option ValueArray :=
  if length < 0 then some (.map [])
  else if length.toInt.toNat ≤ maxList then
    some (.list (Array.replicate length.toInt.toNat blank))
  else none

/-- A key that was set has its value. -/
theorem get?_setEntry_self (key value : Value) (es : List (Value × Value)) :
    (ValueArray.map (setEntry key value es)).get? key = some value := by
  simp only [get?]
  induction es with
  | nil => simp [setEntry]
  | cons e es ih =>
    rw [setEntry]
    by_cases h : e.1 == key
    · simp [h]
    · simp [h, ih]

end ValueArray

/-- All arrays of a program. -/
structure ArrayStore where
  arrays : Array ValueArray := #[]
  deriving DecidableEq, Repr

namespace ArrayStore

/-- The number that no array has. -/
def noArray : Int32 := 0

/-- The number of arrays. -/
def count (s : ArrayStore) : Nat := s.arrays.size

/-- The place of an array in the store. -/
def slot? (id : Int32) : Option Nat := if id ≤ 0 then none else some (id.toInt.toNat - 1)

/-- The array with a number. -/
def get? (s : ArrayStore) (id : Int32) : Option ValueArray := (slot? id).bind (s.arrays[·]?)

/-- A new array, blank or a map as `ValueArray.create?` says; `noArray` if it would be too long. -/
def create (s : ArrayStore) (length : Int32) : ArrayStore × Int32 :=
  match ValueArray.create? length with
  | some a => (⟨s.arrays.push a⟩, Int32.ofNat (s.count + 1))
  | none => (s, noArray)

/-- The store with a value at a key of an array; `none` if there is no such array or the array does
not take the key. -/
def set? (s : ArrayStore) (id : Int32) (key value : Value) : Option ArrayStore :=
  match slot? id with
  | none => none
  | some n =>
    if h : n < s.arrays.size then (s.arrays[n].set? key value).map fun a => ⟨s.arrays.set n a⟩
    else none

/-- The store after a value was set at a key of an array, if that was possible. -/
def set (s : ArrayStore) (id : Int32) (key value : Value) : ArrayStore :=
  (s.set? id key value).getD s

/-- Setting an element leaves the other arrays alone. -/
theorem get?_set_of_ne (s : ArrayStore) {id id' : Int32} (key value : Value)
    (h : slot? id ≠ slot? id') : (s.set id key value).get? id' = s.get? id' := by
  unfold set set?
  split
  · rfl
  · rename_i n hn
    split
    · cases s.arrays[n].set? key value with
      | none => rfl
      | some a =>
        simp only [Option.map_some, Option.getD_some, get?]
        cases hm : slot? id' with
        | none => rfl
        | some m =>
          have hne : n ≠ m := fun e => h (by rw [hn, hm, e])
          simp [Array.getElem?_set, hne]
    · rfl

end ArrayStore

end StackScript
