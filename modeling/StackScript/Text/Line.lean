/-!
# Lines

How a text falls into lines: a line feed ends a line and takes one carriage return before it along.

* `lines` gives them in order; characters after the last line feed are a last line, which keeps a
  carriage return.
* `unlines` writes each line with a line feed, and is read back by `lines` (`lines_unlines`) when no
  line holds a line feed or ends in a carriage return.
-/

namespace StackScript.Text

/-- The lines of a text. -/
def lines : List Char → List (List Char)
  | [] => []
  | '\r' :: '\n' :: cs => [] :: lines cs
  | '\n' :: cs => [] :: lines cs
  | c :: cs =>
    match lines cs with
    | [] => [[c]]
    | l :: ls => (c :: l) :: ls

/-- The lines, each ended by a line feed. -/
def unlines (ls : List (List Char)) : List Char := ls.flatMap (· ++ ['\n'])

/-- A line without a line feed or a carriage return at its end is read up to its line feed. -/
theorem lines_append_newline {l : List Char} (rest : List Char) (h : '\n' ∉ l)
    (hr : l.getLast? ≠ some '\r') : lines (l ++ '\n' :: rest) = l :: lines rest := by
  induction l with
  | nil => rw [List.nil_append, lines]
  | cons c l ih =>
    simp only [List.mem_cons, not_or] at h
    have hl : lines (l ++ '\n' :: rest) = l :: lines rest := by
      cases l with
      | nil => rw [List.nil_append, lines]
      | cons d l => exact ih h.2 (by simpa using hr)
    have hc : ∀ r, c = '\r' → l ++ '\n' :: rest ≠ '\n' :: r := by
      rintro r rfl e
      cases l with
      | nil => simp at hr
      | cons d l => simp_all
    rw [List.cons_append, lines, hl]
    · exact hc
    · exact fun e => h.1 e.symm

/-- Lines written with line feeds are read back. -/
theorem lines_unlines {ls : List (List Char)} (h : ∀ l ∈ ls, '\n' ∉ l)
    (hr : ∀ l ∈ ls, l.getLast? ≠ some '\r') : lines (unlines ls) = ls := by
  induction ls with
  | nil => rfl
  | cons l ls ih =>
    have e : unlines (l :: ls) = l ++ '\n' :: unlines ls := by simp [unlines]
    rw [e, lines_append_newline _ (h l List.mem_cons_self) (hr l List.mem_cons_self),
      ih (fun m hm => h m (List.mem_cons_of_mem l hm))
        fun m hm => hr m (List.mem_cons_of_mem l hm)]

end StackScript.Text
