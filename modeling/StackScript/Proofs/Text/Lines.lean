import Mathlib
import StackScript.Text.Line

/-!
# Lines of texts put together

* `lines_append_of_isEnded`: after a line feed the lines of a text do not depend on what comes
  before.
* `lines_append_of_not_mem`: what stands before a text without a line feed of its own becomes the
  beginning of its first line.
* `exists_lines_append`: a line is read up to its line feed and loses a carriage return at its end.
* `lines_concat_cases`: a line feed at the end of a text adds an empty line, or takes a carriage
  return from the last one.
* `newline_not_mem_of_mem_lines`: no line holds a line feed; `length_lines_concat` counts the lines
  by the line feeds, and `exists_isEnded_append` finds the last one.
-/

namespace StackScript.Text

/-- A character that is neither a line feed nor the carriage return before one begins the first line
of what follows. -/
theorem lines_cons {c : Char} {cs : List Char} (hn : c ≠ '\n')
    (hr : c = '\r' → cs.head? ≠ some '\n') :
    lines (c :: cs) = (c :: (lines cs).headD []) :: (lines cs).tail := by
  rw [lines]
  · cases lines cs <;> rfl
  · rintro ds hc rfl
    exact hr hc rfl
  · exact hn

theorem lines_ne_nil {cs : List Char} (h : cs ≠ []) : lines cs ≠ [] := by
  unfold lines
  split
  · exact absurd rfl h
  · exact List.cons_ne_nil _ _
  · exact List.cons_ne_nil _ _
  · split <;> exact List.cons_ne_nil _ _

/-- What stands before a text becomes the beginning of its first line. -/
theorem lines_append_of_not_mem {a cs l : List Char} {ls : List (List Char)} (h : '\n' ∉ a)
    (hr : a.getLast? ≠ some '\r') (hl : lines cs = l :: ls) : lines (a ++ cs) = (a ++ l) :: ls := by
  induction a with
  | nil => exact hl
  | cons c a ih =>
    obtain ⟨hc, ha⟩ := not_or.mp (mt List.mem_cons.mpr h)
    have hcr : c = '\r' → (a ++ cs).head? ≠ some '\n' := by
      rintro rfl e
      cases a with
      | nil => exact hr rfl
      | cons d a =>
        obtain rfl : d = '\n' := by simpa using e
        exact ha List.mem_cons_self
    have hl' : lines (a ++ cs) = (a ++ l) :: ls := by
      cases a with
      | nil => exact hl
      | cons d a => exact ih ha (by simpa using hr)
    rw [List.cons_append, lines_cons (Ne.symm hc) hcr, hl']
    rfl

/-- A line feed separates the lines before it from those after it. -/
theorem lines_append (a b : List Char) :
    lines (a ++ '\n' :: b) = lines (a ++ ['\n']) ++ lines b := by
  induction a using lines.induct with
  | case1 => simp [lines]
  | case2 cs ih => simp only [List.cons_append, lines, ih]
  | case3 cs ih => simp only [List.cons_append, lines, ih]
  | case4 c cs hr hn hl ih =>
    -- The last character before the line feed: a carriage return goes with it.
    obtain rfl : cs = [] := Classical.byContradiction fun h => lines_ne_nil h hl
    by_cases hc : c = '\r'
    · subst hc
      simp [lines]
    · simp [lines_cons hn (absurd · hc), lines]
  | case5 c cs hr hn l ls hl ih =>
    have hne : cs ≠ [] := by
      rintro rfl
      cases hl
    have hcr (b : List Char) : c = '\r' → (cs ++ '\n' :: b).head? ≠ some '\n' := by
      intro hc e
      rw [List.head?_append_of_ne_nil _ hne] at e
      obtain ⟨ds, rfl⟩ := List.head?_eq_some_iff.mp e
      exact hr ds hc rfl
    have hl' : lines (cs ++ ['\n']) ≠ [] := lines_ne_nil (by simp)
    obtain ⟨l', ls', e⟩ := List.exists_cons_of_ne_nil hl'
    rw [List.cons_append, List.cons_append, lines_cons hn (hcr b), lines_cons hn (hcr []), ih, e]
    rfl

/-- A carriage return goes with the line feed after it. -/
theorem lines_append_return {l : List Char} (rest : List Char) (h : '\n' ∉ l) :
    lines (l ++ '\r' :: '\n' :: rest) = l :: lines rest := by
  induction l with
  | nil => rw [List.nil_append, lines]
  | cons c l ih =>
    obtain ⟨hc, hl⟩ := not_or.mp (mt List.mem_cons.mpr h)
    have hcr : c = '\r' → (l ++ '\r' :: '\n' :: rest).head? ≠ some '\n' := by
      intro _ e
      cases l with
      | nil => exact absurd e (by simp)
      | cons d l =>
        obtain rfl : d = '\n' := by simpa using e
        exact hl List.mem_cons_self
    rw [List.cons_append, lines_cons (Ne.symm hc) hcr, ih hl]
    rfl

/-- A line is read up to its line feed, without a carriage return at its end. -/
theorem exists_lines_append {l : List Char} (rest : List Char) (h : '\n' ∉ l) :
    ∃ l', lines (l ++ '\n' :: rest) = l' :: lines rest ∧ (l = l' ∨ l = l' ++ ['\r']) := by
  by_cases hr : l.getLast? = some '\r'
  · obtain ⟨l', rfl⟩ := List.getLast?_eq_some_iff.mp hr
    refine ⟨l', ?_, .inr rfl⟩
    rw [List.append_assoc]
    exact lines_append_return rest fun hl => h (List.mem_append_left _ hl)
  · exact ⟨l, lines_append_newline rest h hr, .inl rfl⟩

/-- A text without a line feed is its only line. -/
theorem lines_of_not_mem {l : List Char} (hne : l ≠ []) (h : '\n' ∉ l) : lines l = [l] := by
  induction l with
  | nil => exact absurd rfl hne
  | cons c l ih =>
    obtain ⟨hc, hl⟩ := not_or.mp (mt List.mem_cons.mpr h)
    rw [lines_cons (Ne.symm hc) fun _ e => hl (List.mem_of_head? e)]
    cases l with
    | nil => rfl
    | cons d l =>
      rw [ih (List.cons_ne_nil d l) hl]
      rfl

/-- A text without a line feed is one line. -/
theorem exists_lines_eq_singleton {cs : List Char} (h : '\n' ∉ cs) :
    ∃ l, lines (cs ++ ['\n']) = [l] := by
  obtain ⟨l, hl, -⟩ := exists_lines_append [] h
  exact ⟨l, hl⟩

/-- A text with a line feed at its end has as many lines as line feeds. -/
theorem length_lines_concat (a : List Char) :
    (lines (a ++ ['\n'])).length = a.count '\n' + 1 := by
  induction hn : a.length using Nat.strongRecOn generalizing a with
  | _ n ih =>
    by_cases h : '\n' ∈ a
    · obtain ⟨p, q, rfl, hp⟩ := List.eq_append_cons_of_mem h
      obtain ⟨l, hl⟩ := exists_lines_eq_singleton hp
      have hq := ih q.length (by rw [← hn, List.length_append, List.length_cons]; omega) q rfl
      rw [List.append_assoc, List.cons_append, lines_append, hl, List.length_append, hq,
        List.length_singleton, List.count_append, List.count_eq_zero.mpr hp, List.count_cons_self]
      omega
    · obtain ⟨l, hl⟩ := exists_lines_eq_singleton h
      rw [hl, List.count_eq_zero.mpr h]
      rfl

/-- A text that is empty or ends in a line feed. -/
def IsEnded (cs : List Char) : Prop := cs = [] ∨ ∃ a, cs = a ++ ['\n']

/-- What follows the last line feed of a text. -/
theorem exists_isEnded_append (a : List Char) :
    ∃ p l, a = p ++ l ∧ IsEnded p ∧ '\n' ∉ l := by
  induction a using List.reverseRecOn with
  | nil => exact ⟨[], [], rfl, .inl rfl, List.not_mem_nil⟩
  | append_singleton a c ih =>
    by_cases hc : c = '\n'
    · subst hc
      exact ⟨a ++ ['\n'], [], by simp, .inr ⟨a, rfl⟩, List.not_mem_nil⟩
    · obtain ⟨p, l, rfl, hp, hl⟩ := ih
      refine ⟨p, l ++ [c], List.append_assoc .., hp, ?_⟩
      simpa [hl] using Ne.symm hc

theorem lines_append_of_isEnded {a : List Char} (h : IsEnded a) (b : List Char) :
    lines (a ++ b) = lines a ++ lines b := by
  rcases h with rfl | ⟨a, rfl⟩
  · simp [lines]
  · rw [List.append_assoc, List.singleton_append, lines_append]

/-- A line feed at the end of a text adds an empty line, or ends the last line, which may lose a
carriage return. -/
theorem lines_concat_cases (a : List Char) :
    lines (a ++ ['\n']) = lines a ++ [[]] ∨
      ∃ ls l l', lines a = ls ++ [l] ∧ lines (a ++ ['\n']) = ls ++ [l'] ∧
        (l = l' ∨ l = l' ++ ['\r']) := by
  obtain ⟨p, l, rfl, hp, hl⟩ := exists_isEnded_append a
  rw [List.append_assoc, lines_append_of_isEnded hp, lines_append_of_isEnded hp]
  by_cases hne : l = []
  · subst hne
    simp [lines]
  · obtain ⟨l', hlines, hl'⟩ := exists_lines_append [] hl
    rw [lines_of_not_mem hne hl, hlines, lines]
    exact .inr ⟨lines p, l, l', rfl, rfl, hl'⟩

theorem IsEnded.append {a b : List Char} (ha : IsEnded a) (hb : IsEnded b) : IsEnded (a ++ b) := by
  rcases hb with rfl | ⟨b, rfl⟩
  · rwa [List.append_nil]
  · exact .inr ⟨a ++ b, (List.append_assoc ..).symm⟩

theorem isEnded_flatMap {α : Type} {f : α → List Char} (h : ∀ x, IsEnded (f x)) (xs : List α) :
    IsEnded (xs.flatMap f) := by
  induction xs with
  | nil => exact .inl rfl
  | cons x xs ih =>
    rw [List.flatMap_cons]
    exact (h x).append ih

theorem newline_not_mem_of_mem_lines {cs l : List Char} (h : l ∈ lines cs) : '\n' ∉ l := by
  induction cs using lines.induct generalizing l with
  | case1 => cases h
  | case2 cs ih | case3 cs ih =>
    rw [lines] at h
    rcases List.mem_cons.mp h with rfl | h
    · exact List.not_mem_nil
    · exact ih h
  | case4 c cs hr hn hl ih =>
    obtain rfl : cs = [] := Classical.byContradiction fun h => lines_ne_nil h hl
    have hs : lines [c] = [[c]] := lines_cons hn (by simp)
    obtain rfl : l = [c] := by simpa [hs] using h
    simpa using Ne.symm hn
  | case5 c cs hr hn l' ls hl ih =>
    rw [lines, hl] at h
    · rcases List.mem_cons.mp h with rfl | h
      · have := ih (hl ▸ List.mem_cons_self)
        simp [this, Ne.symm hn]
      · exact ih (hl ▸ List.mem_cons_of_mem _ h)
    · exact hr
    · exact hn

end StackScript.Text
