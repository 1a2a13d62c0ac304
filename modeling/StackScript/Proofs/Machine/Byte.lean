import StackScript.Proofs.Machine.Iteration
import StackScript.Proofs.Text.Slice

/-!
# The bytes of a text, one by one

A script that looks at a text byte by byte takes out a text for each of them, and asks for the first
byte of this.

* `slice_one`: a slice of one byte is the text of this byte.
* `firstByte_byteAt`: its first byte is the byte in ASCII. Any other byte is no character, and
  the first byte of its replacement stands for it.
* `byteCode_run`, `sliceCode_run`: what a script gets at an index, in two ways.
* `byteCode_eq_iff` is the statement for all indices of a text.
-/

namespace StackScript.Machine

open Text

variable {m : Machine} {v : Value} {text : String} {i : Int32} {b : UInt8}

/-! ## The text of a byte -/

/-- The number that a script gets for a byte: a byte outside of ASCII is replaced. -/
def codeOf (b : UInt8) : Int32 := if b < 128 then b.toInt8.toInt32 else -17

/-- One byte outside of ASCII is told right: the one that begins a replacement. -/
theorem codeOf_eq_iff : codeOf b = b.toInt8.toInt32 ↔ b < 128 ∨ b = 0xEF := by
  revert b
  decide +kernel

theorem byteAt_of_getElem? (hi : 0 ≤ i) (hb : (encode text.toList)[i.toInt.toNat]? = some b) :
    byteAt text i = .ofList (decode [b]) := by
  rw [byteAt, if_neg (Int32.not_lt.mpr hi), hb]
  rfl

theorem firstByte_byteAt (hi : 0 ≤ i) (hb : (encode text.toList)[i.toInt.toNat]? = some b) :
    firstByte (byteAt text i) = codeOf b := by
  rw [byteAt_of_getElem? hi hb, firstByte, String.toList_ofList]
  clear hb
  revert b
  decide +kernel

/-- A slice of one byte is the text of this byte. -/
theorem slice_one (hi : 0 ≤ i) (hb : (encode text.toList)[i.toInt.toNat]? = some b) :
    slice text i 1 = byteAt text i := by
  have hstart : ¬ i.toInt < 0 := not_lt.mpr (Int32.le_iff_toInt_le.mp hi)
  obtain ⟨hlt, -⟩ := List.getElem?_eq_some_iff.mp hb
  have hcount : sliceLength (encode text.toList).length i.toInt.toNat 1 = 1 := by
    have h := sliceLength_natCast (encode text.toList).length i.toInt.toNat 1
    rw [if_neg (by omega)] at h
    exact h
  have hone : (1 : Int32).toInt = 1 := by decide
  rw [byteAt_of_getElem? hi hb, slice, sliceBytes, sliceStart, if_neg hstart, hone, hcount,
    List.take_one, List.head?_drop, hb]
  rfl

/-! ## Asking for a byte -/

/-- Takes out the byte at an index and asks for its number. -/
def byteCode (text : Value) (i : Int32) : Action Value := do
  let piece ← ask .getArray [text, .int i]
  ask .charcode [piece]

/-- Takes out a slice of one byte and asks for its number. -/
def sliceCode (text : Value) (i : Int32) : Action Value := do
  let piece ← ask .substr [text, .int i, .int 1]
  ask .charcode [piece]

section

variable (hs : m.stopped = none)
include hs

/-- What an opcode computes from one text. -/
theorem ask_ofText {op : Opcode} {f : String → Int32} (hr : m.depth < m.capacity)
    (ht : m.textNamed? v = some text) (hop : step op = popText >>= fun text => pushInt (f text)) :
    ask op [v] m = .ok (.int (f text)) m := by
  refine ask_run hs hr ?_
  show step op (m.on (v :: m.stack)) = _
  rw [hop, popText_run ht]
  exact push_run _ hr

variable {piece : String} (hr : m.depth + 3 ≤ m.capacity) (hh : m.HasHandle piece)
include hr hh

/-- A text that was taken out is asked for its first byte. -/
theorem ask_charcode_interned :
    ask .charcode [(m.interned piece).2] (m.interned piece).1 =
      .ok (.int (firstByte piece)) (m.interned piece).1 := by
  refine ask_ofText ((stopped_interned m piece).trans hs) ?_ (textNamed?_interned hh) rfl
  rw [depth, stack_interned, capacity_interned, ← depth]
  omega

/-- An opcode that takes out a text, and then the first byte of it. -/
theorem ask_then_charcode {op : Opcode} {args : List Value} (hargs : args.length ≤ 3)
    (hop : step op (m.on (args.reverse ++ m.stack)) =
      .ok () ((m.interned piece).1.on ((m.interned piece).2 :: m.stack))) :
    (ask op args >>= fun piece => ask .charcode [piece]) m =
      .ok (.int (firstByte piece)) (m.interned piece).1 := by
  have hfirst : ask op args m = .ok (m.interned piece).2 ((m.interned piece).1.on m.stack) :=
    ask_run_to hs (by omega) hop
  have hsame : (m.interned piece).1.on m.stack = (m.interned piece).1 := by
    rw [← stack_interned m piece]
    rfl
  simp only [Bind.bind, EStateM.bind, hfirst, hsame]
  exact ask_charcode_interned hs hr hh

end

section

variable (hs : m.stopped = none) (hr : m.depth + 3 ≤ m.capacity)
  (ht : m.textNamed? v = some text)
include hs hr ht

theorem byteCode_run (hh : m.HasHandle (byteAt text i)) :
    byteCode v i m = .ok (.int (firstByte (byteAt text i))) (m.interned (byteAt text i)).1 := by
  rw [depth] at hr
  refine ask_then_charcode hs hr hh (Nat.le_add_left _ _) ?_
  cases v with
  | int n | float x | pointer address => cases ht
  | string handle =>
    show stepGetArray (m.on (.int i :: .string handle :: m.stack)) = _
    rw [stepGetArray, pop_run, pop_run]
    exact (textOf_run ht _).trans (pushText_run _ (by omega))

theorem sliceCode_run (hh : m.HasHandle (slice text i 1)) :
    sliceCode v i m = .ok (.int (firstByte (slice text i 1))) (m.interned (slice text i 1)).1 := by
  rw [depth] at hr
  refine ask_then_charcode hs hr hh le_rfl ?_
  show stepSubstr (m.on (.int 1 :: .int i :: v :: m.stack)) = _
  rw [stepSubstr, popInt_run rfl, popInt_run rfl, popText_run ht]
  exact pushText_run _ (by omega)

/-- At every index below the length of a text, a script that takes out the byte by its index and one
that takes out a slice of one byte get the same number. It is the byte as a signed number for the
bytes of ASCII and for one other byte, the one that begins a replacement. For any other byte it is
the number of this one. -/
theorem byteCode_eq_iff (hh : m.strings.size < UInt32.size) :
    let n := Int32.ofNat (size text.toList)
    ask .strlen [v] m = .ok (.int n) m ∧ ∀ i : Int32, 0 ≤ i → i < n →
      ∃ (b : UInt8) (code : Int32), (encode text.toList)[i.toInt.toNat]? = some b ∧
        byteCode v i m = .ok (.int code) (m.interned (byteAt text i)).1 ∧
        sliceCode v i m = byteCode v i m ∧
        (code = b.toInt8.toInt32 ↔ b < 128 ∨ b = 0xEF) ∧ (128 ≤ b → code = -17) := by
  intro n
  have hlength : ask .strlen [v] m = .ok (.int n) m :=
    ask_ofText (f := fun text => .ofNat (size text.toList)) hs (by omega) ht rfl
  refine ⟨hlength, fun i hi hlt => ?_⟩
  have hinside : i.toInt.toNat < (encode text.toList).length := by
    have hwords : Int32.size = 2 ^ 32 := rfl
    rw [Int32.le_iff_toInt_le, Int32.toInt_zero] at hi
    rw [Int32.lt_iff_toInt_lt, Int32.toInt_ofNat', Int.bmod, hwords] at hlt
    rw [length_encode]
    split at hlt <;> omega
  obtain ⟨b, hb⟩ : ∃ b, (encode text.toList)[i.toInt.toNat]? = some b :=
    ⟨_, List.getElem?_eq_getElem hinside⟩
  have hbyte := byteCode_run (i := i) hs hr ht (hasHandle_of_lt _ hh)
  have hslice := sliceCode_run (i := i) hs hr ht (hasHandle_of_lt _ hh)
  rw [slice_one hi hb, ← hbyte] at hslice
  rw [firstByte_byteAt hi hb] at hbyte
  exact ⟨b, codeOf b, hb, hbyte, hslice, codeOf_eq_iff, fun h => if_neg (UInt8.not_lt.mpr h)⟩

end

/-- The two bytes of a character outside of ASCII. Both give the same number, and neither is its
byte. -/
theorem byteCode_eq_iff_accent :
    let m : Machine := { stack := [.int 7], capacity := 4, strings := #["é"] }
    encode "é".toList = [0xC3, 0xA9] ∧ ∀ i : Int32, i = 0 ∨ i = 1 →
      byteCode (.string 0) i m = .ok (.int (-17)) (m.interned (byteAt "é" i)).1 ∧
      sliceCode (.string 0) i m = .ok (.int (-17)) (m.interned (byteAt "é" i)).1 := by
  intro m
  have hbytes : encode "é".toList = [0xC3, 0xA9] := by decide
  have htext : m.textNamed? (.string 0) = some "é" := rfl
  obtain ⟨-, hcodes⟩ := byteCode_eq_iff rfl (by decide) htext (by decide)
  rw [hbytes] at hcodes
  have hcode {i : Int32} (h0 : 0 ≤ i) (h2 : i < .ofNat (size "é".toList))
      (hhigh : ∀ b, ([0xC3, 0xA9] : List UInt8)[i.toInt.toNat]? = some b → 128 ≤ b) :
      byteCode (.string 0) i m = .ok (.int (-17)) (m.interned (byteAt "é" i)).1 ∧
      sliceCode (.string 0) i m = .ok (.int (-17)) (m.interned (byteAt "é" i)).1 := by
    obtain ⟨b, code, hb, hbyte, hslice, -, hminus⟩ := hcodes i h0 h2
    rw [hminus (hhigh b hb)] at hbyte
    exact ⟨hbyte, hslice.trans hbyte⟩
  refine ⟨hbytes, ?_⟩
  rintro i (rfl | rfl)
  · exact hcode (by decide) (by decide) fun b hb => by cases hb; decide
  · exact hcode (by decide) (by decide) fun b hb => by cases hb; decide

end StackScript.Machine
