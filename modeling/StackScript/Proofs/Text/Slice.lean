import StackScript.Proofs.Text.Decode
import StackScript.Text.Slice

/-!
# What a slice selects

The bytes that a signed start and a signed length select of a text, and the text that they are read
as.

* `sliceBounds?` computes the bounds of a slice by steps that have to fit signed words of 64 bits,
  as they do for any text short enough (`sliceBounds?_eq`).
* `sliceBytes_of_neg`: a negative length cuts from the end, except where it cuts off more than there
  is from the start on.
* `length_sliceBytes_le`: the bytes are held at the length, if it is positive, and at `maxSlice`.
* `slice_fits_iff`: so is the text, up to what replacements for cut characters add to it.
-/

namespace StackScript.Text

/-! ## The bounds of a slice -/

/-- The number of bytes for a length that is not negative. -/
theorem sliceLength_natCast (n s w : ℕ) :
    sliceLength n s w = min (if w = 0 ∨ n < w + s then n - s else w) maxSlice := by
  have hneg : ¬(w : ℤ) < 0 := by omega
  simp only [sliceLength, Int.toNat_natCast, hneg, false_and, if_false]

/-- The number of bytes for a negative length, which is as many below the number of bytes that
follow the start as `w` tells, or above it. -/
theorem sliceLength_of_neg {n s w : ℕ} {length : ℤ} (hneg : length < 0)
    (hw : (length + n - s).natAbs = w) :
    sliceLength n s length =
      if w = 0 then 0 else min (if n < w + s then n - s else w) maxSlice := by
  simp only [sliceLength, if_true, hw, hneg, true_and]
  by_cases hw0 : w = 0
  · rw [if_pos hw0, if_pos hw0]
  · simp only [hw0, false_or]

/-- A slice that begins in the text ends in it. -/
theorem add_sliceLength_le {n s : ℕ} (hs : s ≤ n) (length : ℤ) :
    s + sliceLength n s length ≤ n := by
  rcases lt_or_ge length 0 with hneg | hpos
  · rw [sliceLength_of_neg hneg rfl]
    split
    · exact hs
    · split <;> omega
  · obtain ⟨w, rfl⟩ := Int.eq_ofNat_of_zero_le hpos
    rw [sliceLength_natCast]
    split <;> omega

/-! ## Computed by words -/

/-- A number that a signed word of 64 bits holds. -/
def word? (x : ℤ) : Option ℤ := if -2 ^ 63 ≤ x ∧ x < 2 ^ 63 then some x else none

theorem word?_eq {x : ℤ} (h : -2 ^ 63 ≤ x ∧ x < 2 ^ 63) : word? x = some x := if_pos h

/-- Where a slice begins. -/
def wordStart? (n start : ℤ) : Option ℤ :=
  if start < 0 then (word? (start + n)).map (max · 0) else some start

/-- The bounds of a slice from a place on, the length no longer negative: length 0, or one that
passes the end, selects all that follows. -/
def boundsFrom? (n start length : ℤ) : Option (ℕ × ℕ) :=
  if n ≤ start then some (0, 0)
  else
    (word? (length + start)).bind fun stop =>
      (if length = 0 ∨ n < stop then word? (n - start) else some length).bind fun length =>
        (word? (start + min length maxSlice)).map fun stop => (start.toNat, stop.toNat)

/-- The bounds of a slice of `n` bytes; `none` where a step leaves the words of 64 bits. -/
def sliceBounds? (n start length : ℤ) : Option (ℕ × ℕ) :=
  (wordStart? n start).bind fun start =>
    if length < 0 then
      (word? (n - start)).bind fun rest =>
        (word? (length + rest)).bind fun length =>
          if length = 0 then some (0, 0) else (word? |length|).bind (boundsFrom? n start)
    else boundsFrom? n start length

/-- The bounds of `count` bytes from `start` on, among `n` bytes. -/
def boundsOf (n start count : ℕ) : ℕ × ℕ :=
  if n ≤ start ∨ count = 0 then (0, 0) else (start, start + count)

section

variable {n : ℕ} (hn : n + 2 ^ 31 ≤ 2 ^ 63)
include hn

/-- From a place on, no step leaves the words. -/
theorem boundsFrom?_eq {s w : ℕ} (hw : w + s < 2 ^ 63) :
    boundsFrom? n s w =
      some (boundsOf n s (min (if w = 0 ∨ n < w + s then n - s else w) maxSlice)) := by
  have hmax : 0 < maxSlice := by decide
  unfold boundsFrom? boundsOf
  by_cases hend : n ≤ s
  · rw [if_pos (by exact_mod_cast hend), if_pos (.inl hend)]
  rw [if_neg (by exact_mod_cast hend), word?_eq (by omega), Option.bind_some]
  by_cases hall : w = 0 ∨ n < w + s
  · have hall' : (w : ℤ) = 0 ∨ (n : ℤ) < w + s := by exact_mod_cast hall
    rw [if_pos hall', if_pos hall, word?_eq (by omega), Option.bind_some, word?_eq (by omega),
      Option.map_some, if_neg (by omega)]
    congr 2
    omega
  · have hall' : ¬((w : ℤ) = 0 ∨ (n : ℤ) < w + s) := by exact_mod_cast hall
    rw [if_neg hall', if_neg hall, Option.bind_some, word?_eq (by omega), Option.map_some,
      if_neg (by omega)]
    congr 2
    omega

theorem wordStart?_eq {start : ℤ} (hlow : -2 ^ 31 ≤ start) :
    wordStart? n start = some (sliceStart n start : ℤ) := by
  unfold wordStart? sliceStart
  split
  · rw [word?_eq (by omega), Option.map_some]
    congr 1
    omega
  · congr 1
    omega

/-- No step leaves the words for a text that leaves room for a length above its own, and the bounds
are those of the bytes selected. -/
theorem sliceBounds?_eq (start length : Int32) :
    sliceBounds? n start.toInt length.toInt =
      some (boundsOf n (sliceStart n start.toInt)
        (sliceLength n (sliceStart n start.toInt) length.toInt)) := by
  have hstart := start.le_toInt
  have hstart' := start.toInt_lt
  have hlength := length.le_toInt
  have hlength' := length.toInt_lt
  have hplace : (sliceStart n start.toInt : ℤ) = max (start.toInt + n) 0 ∧ start.toInt < 0 ∨
      (sliceStart n start.toInt : ℤ) = start.toInt ∧ 0 ≤ start.toInt := by
    unfold sliceStart
    split <;> omega
  unfold sliceBounds?
  rw [wordStart?_eq hn hstart, Option.bind_some]
  generalize sliceStart n start.toInt = s at hplace ⊢
  generalize length.toInt = length at *
  by_cases hneg : length < 0
  · rw [if_pos hneg, word?_eq (by omega), Option.bind_some, word?_eq (by omega), Option.bind_some]
    obtain ⟨w, hw⟩ : ∃ w, (length + n - s).natAbs = w := ⟨_, rfl⟩
    rw [sliceLength_of_neg hneg hw]
    by_cases hnone : length + (n - s) = 0
    · have hw0 : w = 0 := by omega
      rw [if_pos hnone, if_pos hw0, boundsOf, if_pos (.inr rfl)]
    · have hw0 : w ≠ 0 := by omega
      have habs : |length + (n - s)| = (w : ℤ) := by
        rw [← hw, Int.natCast_natAbs, add_sub_assoc]
      rw [if_neg hnone, if_neg hw0, habs, word?_eq (by omega), Option.bind_some,
        boundsFrom?_eq hn (by omega)]
      simp only [hw0, false_or]
  · obtain ⟨w, rfl⟩ := Int.eq_ofNat_of_zero_le (not_lt.mp hneg)
    rw [if_neg hneg, boundsFrom?_eq hn (by omega), sliceLength_natCast]

end

/-- The bounds are in the text, and what is between them is selected. -/
theorem drop_take_boundsOf (bytes : List UInt8) {s k : ℕ}
    (hk : s ≤ bytes.length → s + k ≤ bytes.length) :
    (boundsOf bytes.length s k).1 ≤ (boundsOf bytes.length s k).2 ∧
      (boundsOf bytes.length s k).2 ≤ bytes.length ∧
      (bytes.take (boundsOf bytes.length s k).2).drop (boundsOf bytes.length s k).1 =
        (bytes.drop s).take k := by
  unfold boundsOf
  split
  · rename_i hnone
    refine ⟨le_rfl, Nat.zero_le _, ?_⟩
    rcases hnone with hend | hzero
    · rw [List.drop_of_length_le hend, List.take_nil, List.take_zero, List.drop_zero]
    · rw [hzero, List.take_zero, List.take_zero, List.drop_zero]
  · rename_i hsome
    refine ⟨Nat.le_add_right s k, hk (by omega), ?_⟩
    rw [List.drop_take, Nat.add_sub_cancel_left]

/-! ## A length below zero -/

/-- A negative length tells how many bytes are selected, before they are held at `maxSlice`: as many
as there are between the start and the place that it counts from the end, whichever of the two comes
first. So it cuts from the end unless that place is before the start, which is in the text. No
step leaves the words, and the bounds are in the text. -/
theorem sliceBytes_of_neg (text : String) (start length : Int32) (hneg : length < 0) :
    let bytes := encode text.toList
    let n : ℤ := bytes.length
    let s : ℤ := if start < 0 then max (start.toInt + n) 0 else start.toInt
    let e : ℤ := n + length.toInt
    let selected := sliceBytes bytes start length
    selected = (bytes.drop s.toNat).take (min (e - s).natAbs maxSlice) ∧
      (selected = ((bytes.take e.toNat).drop s.toNat).take maxSlice ↔ s ≤ e ∨ n ≤ s) ∧
      (n + 2 ^ 31 ≤ 2 ^ 63 → ∃ i j, sliceBounds? n start.toInt length.toInt = some (i, j) ∧
        i ≤ j ∧ j ≤ bytes.length ∧ selected = (bytes.take j).drop i) := by
  intro bytes n s e selected
  have hneg' : length.toInt < 0 := Int32.lt_iff_toInt_lt.mp hneg
  have hs : s.toNat = sliceStart bytes.length start.toInt ∧ 0 ≤ s := by
    have hstart : start < 0 ↔ start.toInt < 0 := Int32.lt_iff_toInt_lt
    simp only [s, sliceStart, hstart]
    split <;> omega
  have hcount : selected = (bytes.drop s.toNat).take (min (e - s).natAbs maxSlice) := by
    show (bytes.drop _).take _ = _
    rw [← hs.1, sliceLength_of_neg (w := (e - s).natAbs) hneg' (by congr 1; omega),
      List.take_eq_take_iff, List.length_drop]
    split
    · omega
    · split <;> omega
  refine ⟨hcount, ?_, fun h => ?_⟩
  · have hmax : 0 < maxSlice := by decide
    rw [hcount, List.drop_take, List.take_take, List.take_eq_take_iff, List.length_drop]
    omega
  · have hbounds := sliceBounds?_eq (n := bytes.length) (by omega) start length
    obtain ⟨hle, hend, hbetween⟩ :=
      drop_take_boundsOf bytes fun h => add_sliceLength_le h length.toInt
    exact ⟨_, _, hbounds, hle, hend, hbetween.symm⟩

/-- Four bytes are cut off from the end of six and the start is the fifth, so that none should be
left; two are selected. -/
theorem sliceBytes_of_neg_past :
    (-4 : Int32) < 0 ∧ slice "abcdef" 4 (-4) = "ef" ∧
      sliceBytes (encode "abcdef".toList) 4 (-4) ≠
        (((encode "abcdef".toList).take 2).drop 4).take maxSlice := by
  obtain ⟨-, hcut, -⟩ := sliceBytes_of_neg "abcdef" 4 (-4) (by decide)
  exact ⟨by decide, by decide +kernel, fun h => absurd (hcut.mp h) (by decide)⟩

/-! ## The text of a slice -/

/-- The most bytes that are selected for a length. -/
def sliceLimit (length : Int32) : ℕ :=
  if 0 < length then min length.toInt.toNat maxSlice else maxSlice

/-- A slice has no more bytes than its length tells, if that is positive, nor than `maxSlice`. -/
theorem length_sliceBytes_le (bytes : List UInt8) (start length : Int32) :
    (sliceBytes bytes start length).length ≤ sliceLimit length := by
  have hpos : 0 < length ↔ 0 < length.toInt := Int32.lt_iff_toInt_lt
  have hmost := sliceLength_le bytes.length (sliceStart bytes.length start.toInt) length.toInt
  have hcount : (sliceBytes bytes start length).length ≤
      sliceLength bytes.length (sliceStart bytes.length start.toInt) length.toInt :=
    List.length_take_le _ _
  unfold sliceLimit
  split
  · rename_i h
    have hlength := hpos.mp h
    obtain ⟨w, hw⟩ := Int.eq_ofNat_of_zero_le hlength.le
    rw [hw, sliceLength_natCast] at hcount
    rw [hw, Int.toNat_natCast]
    split at hcount <;> omega
  · exact hcount.trans hmost

/-- The bytes selected are held at the limits. They are read as the whole characters among them,
with a replacement of three bytes for each byte that is left of a character cut at the front, and
one for all bytes left of a character cut at the end. The text is held at the limits just where
these replacements do not make it pass them. -/
theorem slice_fits_iff (text : String) (start length : Int32) :
    ∃ head inner tail, inner <:+: text.toList ∧
      IsParted (sliceBytes (encode text.toList) start length) head inner tail ∧
      (slice text start length).toList = List.replicate head.length replacement ++
        (inner ++ if tail = [] then [] else [replacement]) ∧
      (sliceBytes (encode text.toList) start length).length ≤ sliceLimit length ∧
      (size (slice text start length).toList ≤ maxSlice ∧
          (0 < length → size (slice text start length).toList ≤ length.toInt) ↔
        (sliceBytes (encode text.toList) start length).length + IsParted.growth head tail ≤
          sliceLimit length) := by
  obtain ⟨head, inner, tail, hparted, hinner⟩ :
      ∃ head inner tail, IsParted (sliceBytes (encode text.toList) start length) head inner tail ∧
        inner <:+: text.toList := exists_isParted text.toList _ _
  have htext : (slice text start length).toList =
      decode (sliceBytes (encode text.toList) start length) := String.toList_ofList
  have hpos : 0 < length ↔ 0 < length.toInt := Int32.lt_iff_toInt_lt
  refine ⟨head, inner, tail, hinner, hparted, htext.trans hparted.decode_eq,
    length_sliceBytes_le _ start length, ?_⟩
  rw [htext, hparted.size_decode, sliceLimit]
  by_cases h : 0 < length
  · have hlength := hpos.mp h
    rw [if_pos h, forall_prop_of_true h]
    omega
  · rw [if_neg h, and_iff_left fun h' => absurd h' h]

/-- One byte of a character of two is read as three. -/
theorem slice_fits_iff_split :
    slice "é" 0 1 = "�" ∧ size (slice "é" 0 1).toList = 3 ∧
      ∃ head inner tail, IsParted (sliceBytes (encode "é".toList) 0 1) head inner tail ∧
        1 < 1 + IsParted.growth head tail := by
  obtain ⟨head, inner, tail, -, hparted, -, -, hfits⟩ := slice_fits_iff "é" 0 1
  have hslice : slice "é" 0 1 = "�" := by decide +kernel
  rw [hslice] at hfits
  refine ⟨hslice, by rw [hslice]; decide, head, inner, tail, hparted, not_le.mp ?_⟩
  exact fun h => absurd ((hfits.mpr h).2 (by decide)) (by decide)

end StackScript.Text
