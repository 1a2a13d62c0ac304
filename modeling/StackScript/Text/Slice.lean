import StackScript.Text.Utf8

/-!
# Parts of a text by byte position

* `slice` is the text of the bytes that a signed start and a signed length select: those from
  `sliceStart` on, `sliceLength` of them, never more than `maxSlice` (`sliceLength_le`).
* `indexFrom` is the first place at or after a position at which a text begins in another one
  (`prefix_of_indexOf`).
* `byteAt` is the text of one byte.
-/

namespace StackScript.Text

/-- The most bytes that a slice has. -/
def maxSlice : Nat := 5119

/-- Where a slice of `n` bytes begins: a negative start counts from the end. -/
def sliceStart (n : Nat) (start : Int) : Nat :=
  if start < 0 then (start + n).toNat else start.toNat

/-- The number of bytes of a slice that begins at `start` among `n` bytes. A negative length is the
distance from the start to a place counted from the end, taken without its sign; length 0, or one
that passes the end, selects all that follows. -/
def sliceLength (n start : Nat) (length : Int) : Nat :=
  let wanted := if length < 0 then (length + n - start).natAbs else length.toNat
  if length < 0 ∧ wanted = 0 then 0
  else min (if wanted = 0 ∨ n < wanted + start then n - start else wanted) maxSlice

/-- A slice has at most `maxSlice` bytes. -/
theorem sliceLength_le (n start : Nat) (length : Int) : sliceLength n start length ≤ maxSlice := by
  unfold sliceLength
  lift_lets
  intro wanted
  by_cases h : length < 0 ∧ wanted = 0
  · simp [h]
  · rw [if_neg h]
    exact Nat.min_le_right _ _

/-- The bytes that `start` and `length` select. -/
def sliceBytes (bytes : List UInt8) (start length : Int32) : List UInt8 :=
  let offset := sliceStart bytes.length start.toInt
  (bytes.drop offset).take (sliceLength bytes.length offset length.toInt)

/-- The text of the bytes that `start` and `length` select. -/
def slice (text : String) (start length : Int32) : String :=
  String.ofList (decode (sliceBytes (encode text.toList) start length))

/-- The byte at a position as a text, empty where there is none. -/
def byteAt (text : String) (position : Int32) : String :=
  if position < 0 then ""
  else String.ofList (decode (encode text.toList)[position.toInt.toNat]?.toList)

/-- The first place at which `needle` begins. -/
def indexOf (needle : List UInt8) : List UInt8 → Option Nat
  | [] => if needle.isEmpty then some 0 else none
  | b :: bs => if needle.isPrefixOf (b :: bs) then some 0 else (indexOf needle bs).map (· + 1)

/-- The first place at or after `start` at which `needle` begins. -/
def indexFrom (haystack needle : String) (start : Nat) : Option Nat :=
  (indexOf (encode needle.toList) ((encode haystack.toList).drop start)).map (start + ·)

/-- At the place that `indexOf` gives, `needle` begins. -/
theorem prefix_of_indexOf {needle hay : List UInt8} {i : Nat} (h : indexOf needle hay = some i) :
    needle <+: hay.drop i := by
  induction hay generalizing i with
  | nil =>
    cases needle with
    | nil => simp
    | cons b bs => simp [indexOf] at h
  | cons b bs ih =>
    rw [indexOf] at h
    split at h
    · rename_i hp
      obtain rfl : 0 = i := by simpa using h
      exact List.isPrefixOf_iff_prefix.mp hp
    · obtain ⟨j, hj, rfl⟩ := Option.map_eq_some_iff.mp h
      simpa using ih hj

end StackScript.Text
