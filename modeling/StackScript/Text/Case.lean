/-!
# Letter case

Names are compared up to the case of ASCII letters; every other character stands for itself.

* `fold` is the form under which names are compared, `equalFold` the comparison.
-/

namespace StackScript.Text

/-- A text with its ASCII letters in lower case. -/
def fold (s : String) : String := s.map Char.toLower

/-- A text with its ASCII letters in upper case. -/
def raise (s : String) : String := s.map Char.toUpper

/-- Equality up to the case of ASCII letters. -/
def equalFold (a b : String) : Bool := fold a == fold b

theorem equalFold_iff {a b : String} : equalFold a b = true ↔ fold a = fold b := by
  simp [equalFold]

@[simp] theorem equalFold_refl (a : String) : equalFold a a = true := by simp [equalFold]

theorem equalFold_comm (a b : String) : equalFold a b = equalFold b a := by
  simp only [equalFold, Bool.beq_comm]

theorem equalFold_trans {a b c : String} (h : equalFold a b = true) (h' : equalFold b c = true) :
    equalFold a c = true := by
  simp_all [equalFold]

end StackScript.Text
