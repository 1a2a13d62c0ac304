import Mathlib
import StackScript.Text.Utf8

/-!
# Cutting at a number of bytes

`IsLongestPrefix n text kept`: of the beginnings of `text` with at most `n` bytes, `kept` is the
longest. A list of characters ends between two characters, so no beginning splits one.

* `isLongestPrefix_cut`: that is what `cut` keeps.
* `IsLongestPrefix.unique`: nothing else is; hence `cut_cut`, a cut text cut again.
* `truncate` does this to a text (`isLongestPrefix_truncate`, `truncate_truncate`).
* `cut_append_of_le`, `cut_append_of_ge`: where the cut falls in two pieces, one after the other.
-/

namespace StackScript.Text

/-- Of the beginnings of `text` with at most `n` bytes, `kept` is the longest. -/
def IsLongestPrefix (n : Nat) (text kept : List Char) : Prop :=
  kept <+: text ∧ size kept ≤ n ∧ ∀ other, other <+: text → size other ≤ n → other <+: kept

theorem cut_isPrefix (n : Nat) (cs : List Char) : cut n cs <+: cs :=
  ⟨_, cut_append_drop n cs⟩

/-- A beginning that fits is kept. -/
theorem isPrefix_cut {n : Nat} {cs other : List Char} (h : other <+: cs) (hs : size other ≤ n) :
    other <+: cut n cs := by
  induction cs generalizing n other with
  | nil =>
    obtain rfl := List.prefix_nil.mp h
    exact List.nil_prefix
  | cons c cs ih =>
    cases other with
    | nil => exact List.nil_prefix
    | cons d ds =>
      obtain ⟨rfl, hds⟩ := List.cons_prefix_cons.mp h
      simp only [size_cons] at hs
      rw [cut, if_pos (by omega)]
      exact List.cons_prefix_cons.mpr ⟨rfl, ih hds (by omega)⟩

theorem isLongestPrefix_cut (n : Nat) (cs : List Char) : IsLongestPrefix n cs (cut n cs) :=
  ⟨cut_isPrefix n cs, size_cut_le n cs, fun _ h hs => isPrefix_cut h hs⟩

theorem size_le_of_isPrefix {a b : List Char} (h : a <+: b) : size a ≤ size b := by
  obtain ⟨rest, rfl⟩ := h
  rw [size_append]
  exact Nat.le_add_right _ _

theorem IsLongestPrefix.unique {n : Nat} {text kept kept' : List Char}
    (h : IsLongestPrefix n text kept) (h' : IsLongestPrefix n text kept') : kept = kept' :=
  (h'.2.2 kept h.1 h.2.1).eq_of_length_le (h.2.2 kept' h'.1 h'.2.1).length_le

/-- A text that is cut twice is cut to the smaller number of bytes. -/
theorem cut_cut (a b : Nat) (cs : List Char) : cut b (cut a cs) = cut (min a b) cs := by
  refine (isLongestPrefix_cut b (cut a cs)).unique ⟨?_, ?_, fun other h hs => ?_⟩
  · exact isPrefix_cut (cut_isPrefix _ cs) ((size_cut_le _ cs).trans (Nat.min_le_left a b))
  · exact (size_cut_le _ cs).trans (Nat.min_le_right a b)
  · have ha : size other ≤ a := (size_le_of_isPrefix h).trans (size_cut_le a cs)
    exact isPrefix_cut (h.trans (cut_isPrefix a cs)) (Nat.le_min.mpr ⟨ha, hs⟩)

/-- A piece that fits is kept, and the rest is cut to the room that it leaves. -/
theorem cut_append_of_le {n : Nat} {a : List Char} (b : List Char) (h : size a ≤ n) :
    cut n (a ++ b) = a ++ cut (n - size a) b := by
  induction a generalizing n with
  | nil => simp
  | cons c a ih =>
    simp only [size_cons] at h ⊢
    rw [List.cons_append, cut, if_pos (by omega), ih (by omega), List.cons_append,
      show n - c.utf8Size - size a = n - (c.utf8Size + size a) by omega]

/-- Nothing after a piece that takes all the room is kept. -/
theorem cut_append_of_ge {n : Nat} {a : List Char} (b : List Char) (h : n ≤ size a) :
    cut n (a ++ b) = cut n a := by
  induction a generalizing n with
  | nil =>
    obtain rfl : n = 0 := by simpa using h
    cases b with
    | nil => rfl
    | cons c b =>
      have := c.utf8Size_pos
      simp only [List.nil_append, cut]
      rw [if_neg (by omega)]
  | cons c a ih =>
    simp only [size_cons] at h
    rw [List.cons_append, cut, cut]
    split
    · rw [ih (by omega)]
    · rfl

/-! ## Texts -/

theorem toList_truncate (text : String) (n : Nat) :
    (truncate text n).toList = cut n text.toList := String.toList_ofList

theorem truncate_of_le {text : String} {n : Nat} (h : size text.toList ≤ n) :
    truncate text n = text := by
  rw [truncate, cut_eq_self h, String.ofList_toList]

theorem isLongestPrefix_truncate (text : String) (n : Nat) :
    IsLongestPrefix n text.toList (truncate text n).toList := by
  rw [toList_truncate]
  exact isLongestPrefix_cut n text.toList

/-- Of two cuts the shorter one counts. -/
theorem truncate_truncate (text : String) (a b : Nat) :
    truncate (truncate text a) b = truncate text (min a b) := by
  rw [truncate, toList_truncate, cut_cut, truncate]

end StackScript.Text
