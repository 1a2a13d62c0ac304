import StackScript.Proofs.Text.Bytes
import StackScript.Proofs.Text.Cut

/-!
# Cutting at a place between characters

A text can be cut by going back among its bytes, from the most that are allowed to the last place
that is between two characters.

* `isBoundary_encode_iff`: the places between characters are the ends of the beginnings of a text.
* `boundaryUpTo?` goes back byte by byte. It would fail before the first byte, but stops there or
  earlier (`boundaryUpTo?_encode`), after three steps at the most (`lt_size_cut_add`).
* `truncateBytes?` cuts a text at the place found, and `truncateBytes?_eq` says that it does what
  `truncate` does.
-/

namespace StackScript.Text

variable {bytes : List UInt8} {cs : List Char} {i n : ℕ}

/-! ## Places between characters -/

theorem isBoundary_eq_true_iff : isBoundary bytes i = true ↔
    i = 0 ∨ i = bytes.length ∨ ∃ b, bytes[i]? = some b ∧ isContinuation b = false := by
  simp [isBoundary, Option.any_eq_true, or_assoc]

/-- No place within a character is between two. -/
theorem isBoundary_of_lt {c : Char} (hpos : 0 < i) (hlt : i < c.utf8Size) :
    ¬ isBoundary (encode (c :: cs)) i = true := by
  obtain ⟨k, rfl⟩ := Nat.exists_eq_add_one.mpr hpos
  have hlen : k + 1 < (String.utf8EncodeChar c).length := by rwa [String.length_utf8EncodeChar]
  have hbyte : (encode (c :: cs))[k + 1]? = some (String.utf8EncodeChar c)[k + 1] := by
    rw [encode_cons, List.getElem?_append_left hlen, List.getElem?_eq_getElem hlen]
  have hrest : isContinuation (String.utf8EncodeChar c)[k + 1] = true := by
    refine isContinuation_of_mem_tail c _ (List.mem_of_getElem? (i := k) ?_)
    rw [List.getElem?_tail, List.getElem?_eq_getElem hlen]
  rw [isBoundary_eq_true_iff, hbyte, length_encode, size_cons]
  rintro (hzero | hend | ⟨b, hb, hfirst⟩)
  · omega
  · omega
  · rw [← Option.some.inj hb, hrest] at hfirst
    cases hfirst

/-- After a character the places are those of what follows it. -/
theorem isBoundary_cons {c : Char} (h : isBoundary (encode (c :: cs)) (c.utf8Size + i) = true) :
    isBoundary (encode cs) i = true := by
  have hlen := String.length_utf8EncodeChar c
  have hpos := c.utf8Size_pos
  have hbyte : (encode (c :: cs))[c.utf8Size + i]? = (encode cs)[i]? := by
    rw [encode_cons, List.getElem?_append_right (by omega), hlen, Nat.add_sub_cancel_left]
  rw [isBoundary_eq_true_iff, hbyte, length_encode, size_cons] at h
  rw [isBoundary_eq_true_iff, length_encode]
  rcases h with hzero | hend | hfirst
  · omega
  · exact .inr (.inl (Nat.add_left_cancel hend))
  · exact .inr (.inr hfirst)

/-- The places between characters are those at which a beginning of the text ends. -/
theorem isBoundary_encode_iff :
    isBoundary (encode cs) i = true ↔ ∃ kept, kept <+: cs ∧ size kept = i := by
  constructor
  · intro h
    induction cs generalizing i with
    | nil =>
      have hi : i = 0 := by simpa [isBoundary_eq_true_iff] using h
      exact ⟨[], List.nil_prefix, hi.symm⟩
    | cons c cs ih =>
      rcases Nat.eq_zero_or_pos i with rfl | hpos
      · exact ⟨[], List.nil_prefix, rfl⟩
      rcases Nat.lt_or_ge i c.utf8Size with hlt | hle
      · exact absurd h (isBoundary_of_lt hpos hlt)
      · obtain ⟨j, rfl⟩ := Nat.exists_eq_add_of_le hle
        obtain ⟨kept, hkept, rfl⟩ := ih (isBoundary_cons h)
        exact ⟨c :: kept, List.cons_prefix_cons.mpr ⟨rfl, hkept⟩, rfl⟩
  · rintro ⟨kept, ⟨rest, rfl⟩, rfl⟩
    exact isBoundary_size kept rest

/-- A cut text ends at the last place that is allowed. -/
theorem isGreatest_size_cut (n : ℕ) (cs : List Char) :
    IsGreatest {k | isBoundary (encode cs) k = true ∧ k ≤ n} (size (cut n cs)) := by
  refine ⟨⟨isBoundary_encode_iff.mpr ⟨_, cut_isPrefix n cs, rfl⟩, size_cut_le n cs⟩, ?_⟩
  rintro k ⟨hk, hle⟩
  obtain ⟨kept, hkept, rfl⟩ := isBoundary_encode_iff.mp hk
  exact size_le_of_isPrefix (isPrefix_cut hkept hle)

/-! ## Going back to a place -/

/-- The last place between characters up to a place, looked for by going back byte by byte; `none`
where this would go on before the first byte. -/
def boundaryUpTo? (bytes : List UInt8) (i : ℕ) : Option ℕ :=
  if isBoundary bytes i then some i
  else
    match i with
    | 0 => none
    | i + 1 => boundaryUpTo? bytes i

/-- The search ends at the last place, if there is one. -/
theorem boundaryUpTo?_of_isGreatest {k : ℕ}
    (h : IsGreatest {k | isBoundary bytes k = true ∧ k ≤ i} k) :
    boundaryUpTo? bytes i = some k := by
  induction i with
  | zero =>
    obtain rfl : k = 0 := Nat.le_zero.mp h.1.2
    rw [boundaryUpTo?, if_pos h.1.1]
  | succ i ih =>
    by_cases hi : isBoundary bytes (i + 1) = true
    · rw [boundaryUpTo?, if_pos hi, h.unique ⟨⟨hi, le_rfl⟩, fun _ hk => hk.2⟩]
    · rw [boundaryUpTo?, if_neg hi]
      have hle {j : ℕ} (hj : isBoundary bytes j = true) (hji : j ≤ i + 1) : j ≤ i := by
        refine Nat.le_of_lt_succ (lt_of_le_of_ne hji ?_)
        rintro rfl
        exact hi hj
      exact ih ⟨⟨h.1.1, hle h.1.1 h.1.2⟩, fun j hj => h.2 ⟨hj.1, Nat.le_succ_of_le hj.2⟩⟩

/-- In a text the search never goes on before the first byte. -/
theorem boundaryUpTo?_encode (cs : List Char) (n : ℕ) :
    boundaryUpTo? (encode cs) n = some (size (cut n cs)) :=
  boundaryUpTo?_of_isGreatest (isGreatest_size_cut n cs)

/-- From within a text the search goes back by three bytes at the most. -/
theorem lt_size_cut_add (h : n ≤ size cs) : n < size (cut n cs) + 4 := by
  induction cs generalizing n with
  | nil => exact Nat.lt_add_left 0 (Nat.lt_of_le_of_lt h (by decide))
  | cons c cs ih =>
    rw [size_cons] at h
    have hfour : c.utf8Size ≤ 4 := Char.utf8Size_le_four c
    by_cases hfits : c.utf8Size ≤ n
    · have hrest := ih (n := n - c.utf8Size) (by omega)
      rw [cut, if_pos hfits, size_cons]
      omega
    · rw [cut, if_neg hfits, size_nil]
      omega

/-- A text that is too long is cut at the last place between characters; `none` if there is no such
place, or if the text cannot be cut there. -/
def truncateBytes? (text : String) (n : ℕ) : Option String :=
  let bytes := encode text.toList
  if bytes.length ≤ n then some text
  else
    (boundaryUpTo? bytes n).bind fun place =>
      (checkedSlice? text.toList 0 place).map String.ofList

/-- Cutting by places never fails and keeps what `truncate` keeps. -/
theorem truncateBytes?_eq (text : String) (n : ℕ) :
    truncateBytes? text n = some (truncate text n) := by
  unfold truncateBytes?
  simp only [length_encode]
  split
  · rename_i hfits
    rw [truncate_of_le hfits]
  · have hslice := checkedSlice?_size [] (cut n text.toList)
      (text.toList.drop (cut n text.toList).length)
    rw [List.nil_append, cut_append_drop, size_nil, Nat.zero_add] at hslice
    rw [boundaryUpTo?_encode, Option.bind_some, hslice, Option.map_some, truncate]

end StackScript.Text
