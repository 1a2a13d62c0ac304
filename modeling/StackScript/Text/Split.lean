/-!
# Splitting at a character

* `splitOnce? c` gives what comes before and after the first `c` (`splitOnce?_eq_some_iff`).
* `before c` is what comes before the first `c` (`before_append`), or everything (`before_eq_self`).
-/

namespace StackScript.Text

/-- What comes before and after the first `c`. -/
def splitOnce? (c : Char) : List Char → Option (List Char × List Char)
  | [] => none
  | d :: ds => if d = c then some ([], ds) else (splitOnce? c ds).map fun (a, b) => (d :: a, b)

/-- What comes before the first `c`, or everything. -/
def before (c : Char) (cs : List Char) : List Char := cs.takeWhile (· != c)

theorem splitOnce?_append {c : Char} {a : List Char} (b : List Char) (h : c ∉ a) :
    splitOnce? c (a ++ c :: b) = some (a, b) := by
  induction a with
  | nil => simp [splitOnce?]
  | cons d ds ih =>
    simp only [List.mem_cons, not_or] at h
    simp [splitOnce?, ih h.2, Ne.symm h.1]

/-- A text splits in one way: at a first `c`. -/
theorem splitOnce?_eq_some_iff {c : Char} {cs a b : List Char} :
    splitOnce? c cs = some (a, b) ↔ cs = a ++ c :: b ∧ c ∉ a := by
  constructor
  · intro h
    induction cs generalizing a b with
    | nil => simp [splitOnce?] at h
    | cons d ds ih =>
      rw [splitOnce?] at h
      split at h
      · rename_i hd
        simp only [Option.some.injEq, Prod.mk.injEq] at h
        obtain ⟨rfl, rfl⟩ := h
        simp [hd]
      · rename_i hd
        obtain ⟨⟨x, y⟩, hs, he⟩ := Option.map_eq_some_iff.mp h
        simp only [Prod.mk.injEq] at he
        obtain ⟨rfl, rfl⟩ := he
        obtain ⟨rfl, hx⟩ := ih hs
        exact ⟨rfl, by simp [Ne.symm hd, hx]⟩
  · rintro ⟨rfl, h⟩
    exact splitOnce?_append b h

/-- A text without `c` does not split. -/
theorem splitOnce?_eq_none_iff {c : Char} {cs : List Char} :
    splitOnce? c cs = none ↔ c ∉ cs := by
  induction cs with
  | nil => simp [splitOnce?]
  | cons d ds ih =>
    rw [splitOnce?]
    split
    · simp_all
    · rename_i hd
      simp [ih, Ne.symm hd]

theorem before_append {c : Char} {a : List Char} (b : List Char) (h : c ∉ a) :
    before c (a ++ c :: b) = a := by
  unfold before
  induction a with
  | nil => simp
  | cons d ds ih =>
    simp only [List.mem_cons, not_or] at h
    simp [Ne.symm h.1, ih h.2]

theorem before_eq_self {c : Char} {cs : List Char} (h : c ∉ cs) : before c cs = cs := by
  unfold before
  induction cs with
  | nil => rfl
  | cons d ds ih =>
    simp only [List.mem_cons, not_or] at h
    simp [Ne.symm h.1, ih h.2]

theorem not_mem_before (c : Char) (cs : List Char) : c ∉ before c cs := by
  unfold before
  induction cs with
  | nil => simp
  | cons d ds ih =>
    by_cases hd : d = c
    · simp [hd]
    · simp [hd, Ne.symm hd, ih]

end StackScript.Text
