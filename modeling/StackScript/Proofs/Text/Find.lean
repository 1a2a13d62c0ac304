import Mathlib
import StackScript.Text.Slice

/-!
# Where a text occurs in another one

* `Occurs needle hay i`: the bytes `needle` stand in `hay` from the place `i` on. They are as many
  bytes that follow the place, so that none but an empty text occurs at the end (`Occurs.lt`).
* `isLeast_of_indexFrom`, `not_occurs_of_indexFrom`: the place that is found is the least at or
  after the start, and where none is found there is none.
-/

namespace StackScript.Text

/-- The bytes `needle` stand in `hay` from the place `i` on. -/
def Occurs (needle hay : List UInt8) (i : ℕ) : Prop :=
  ∃ before after, hay = before ++ (needle ++ after) ∧ before.length = i

variable {needle hay : List UInt8} {start i : ℕ}

theorem occurs_zero_iff : Occurs needle hay 0 ↔ needle <+: hay := by
  constructor
  · rintro ⟨before, after, rfl, hlen⟩
    rw [List.eq_nil_of_length_eq_zero hlen, List.nil_append]
    exact List.prefix_append needle after
  · rintro ⟨after, rfl⟩
    exact ⟨[], after, rfl, rfl⟩

theorem occurs_succ_iff {b : UInt8} :
    Occurs needle (b :: hay) (i + 1) ↔ Occurs needle hay i := by
  constructor
  · rintro ⟨before, after, heq, hlen⟩
    cases before with
    | nil => cases hlen
    | cons c before => exact ⟨before, after, (List.cons.inj heq).2, Nat.succ_injective hlen⟩
  · rintro ⟨before, after, rfl, rfl⟩
    exact ⟨b :: before, after, rfl, rfl⟩

theorem Occurs.add_length_le (h : Occurs needle hay i) : i + needle.length ≤ hay.length := by
  obtain ⟨before, after, rfl, rfl⟩ := h
  simp only [List.length_append]
  omega

theorem Occurs.lt (h : Occurs needle hay i) (hn : needle ≠ []) : i < hay.length := by
  have := h.add_length_le
  have := List.length_pos_iff.mpr hn
  omega

/-- An empty text occurs everywhere. -/
theorem occurs_nil (h : i ≤ hay.length) : Occurs [] hay i :=
  ⟨hay.take i, hay.drop i, (List.take_append_drop i hay).symm, List.length_take_of_le h⟩

/-- The places after a start are the places in what follows it. -/
theorem occurs_drop_iff (h : start ≤ hay.length) :
    Occurs needle (hay.drop start) i ↔ Occurs needle hay (start + i) := by
  induction start generalizing hay with
  | zero => rw [List.drop_zero, Nat.zero_add]
  | succ start ih =>
    cases hay with
    | nil => cases h
    | cons b hay =>
      rw [List.drop_succ_cons, ih (Nat.le_of_succ_le_succ h), Nat.succ_add, occurs_succ_iff]

/-! ## The first place -/

/-- The place that is found is the least one. -/
theorem isLeast_of_indexOf (h : indexOf needle hay = some i) :
    IsLeast {j | Occurs needle hay j} i := by
  induction hay generalizing i with
  | nil =>
    cases needle with
    | nil =>
      obtain rfl : 0 = i := Option.some.inj h
      exact ⟨occurs_nil le_rfl, fun _ _ => Nat.zero_le _⟩
    | cons b bs => cases h
  | cons b hay ih =>
    rw [indexOf] at h
    split at h
    · rename_i hfirst
      obtain rfl : 0 = i := Option.some.inj h
      exact ⟨occurs_zero_iff.mpr (List.isPrefixOf_iff_prefix.mp hfirst), fun _ _ => Nat.zero_le _⟩
    · rename_i hfirst
      obtain ⟨j, hj, rfl⟩ := Option.map_eq_some_iff.mp h
      obtain ⟨hoccurs, hleast⟩ := ih hj
      refine ⟨occurs_succ_iff.mpr hoccurs, fun k hk => ?_⟩
      cases k with
      | zero => exact absurd (List.isPrefixOf_iff_prefix.mpr (occurs_zero_iff.mp hk)) hfirst
      | succ k => exact Nat.succ_le_succ (hleast (occurs_succ_iff.mp hk))

/-- Where no place is found, there is none. -/
theorem not_occurs_of_indexOf (h : indexOf needle hay = none) (i : ℕ) : ¬ Occurs needle hay i := by
  induction hay generalizing i with
  | nil =>
    intro hoccurs
    cases needle with
    | nil => cases h
    | cons b bs => exact absurd (hoccurs.lt (List.cons_ne_nil b bs)) (Nat.not_lt_zero i)
  | cons b hay ih =>
    rw [indexOf] at h
    split at h
    · cases h
    · rename_i hfirst
      cases i with
      | zero => exact fun hk => hfirst (List.isPrefixOf_iff_prefix.mpr (occurs_zero_iff.mp hk))
      | succ i => exact fun hk => ih (Option.map_eq_none_iff.mp h) i (occurs_succ_iff.mp hk)

section

variable {haystack text : String} (hstart : start ≤ (encode haystack.toList).length)
include hstart

/-- From a start on, the place that is found is the least one. -/
theorem isLeast_of_indexFrom (h : indexFrom haystack text start = some i) :
    IsLeast {j | start ≤ j ∧ Occurs (encode text.toList) (encode haystack.toList) j} i := by
  obtain ⟨k, hk, rfl⟩ := Option.map_eq_some_iff.mp h
  obtain ⟨hoccurs, hleast⟩ := isLeast_of_indexOf hk
  refine ⟨⟨Nat.le_add_right start k, (occurs_drop_iff hstart).mp hoccurs⟩, ?_⟩
  rintro j ⟨hle, hj⟩
  obtain ⟨d, rfl⟩ := Nat.exists_eq_add_of_le hle
  exact Nat.add_le_add_left (hleast ((occurs_drop_iff hstart).mpr hj)) start

theorem not_occurs_of_indexFrom (h : indexFrom haystack text start = none) (hle : start ≤ i) :
    ¬ Occurs (encode text.toList) (encode haystack.toList) i := by
  obtain ⟨d, rfl⟩ := Nat.exists_eq_add_of_le hle
  rw [← occurs_drop_iff hstart]
  exact not_occurs_of_indexOf (Option.map_eq_none_iff.mp h) d

end

end StackScript.Text
