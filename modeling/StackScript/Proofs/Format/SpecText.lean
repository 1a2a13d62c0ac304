import Mathlib
import StackScript.Format.Spec
import StackScript.Proofs.Numeral

/-!
# The text of a specification

A specification is written with flags, then a width, then a precision, the last two if wanted.

* `SpecText` has these parts; a width does not begin with a zero, which would be a flag.
* `SpecText.ofChars_chars`: the flags are set that are written, and there is a precision if one is
  written.
-/

namespace StackScript.Format

open Numeral

/-- The flags that may be written. -/
def flagChars : List Char := "-+ #0".toList

/-- The parts of a written specification. -/
structure SpecText where
  flags : List Char
  /-- The digits of the width, if it is given. -/
  width : List Char
  /-- The digits after the point, if there is one. -/
  precision : Option (List Char)

namespace SpecText

/-- What is written. -/
def chars (t : SpecText) : List Char :=
  t.flags ++ (t.width ++ (t.precision.map ('.' :: ·)).getD [])

/-- The parts are what they are called. -/
structure IsValid (t : SpecText) : Prop where
  flags : ∀ c ∈ t.flags, c ∈ flagChars
  width : ∀ c ∈ t.width, isDigit 10 c = true
  head? : t.width.head? ≠ some '0'
  precision : ∀ ds ∈ t.precision, ∀ c ∈ ds, isDigit 10 c = true

end SpecText

namespace Spec

/-- A specification with flags set besides its own. -/
def withFlags (s : Spec) (cs : List Char) : Spec :=
  { s with
    left := s.left || cs.contains '-'
    plus := s.plus || cs.contains '+'
    space := s.space || cs.contains ' '
    alt := s.alt || cs.contains '#'
    zero := s.zero || cs.contains '0' }

theorem foldl_read_flags {cs : List Char} (h : ∀ c ∈ cs, c ∈ flagChars) (s : Spec) :
    cs.foldl read (.flags, s) = (.flags, s.withFlags cs) := by
  induction cs generalizing s with
  | nil => simp [withFlags]
  | cons c cs ih =>
    obtain ⟨hc, hcs⟩ := List.forall_mem_cons.mp h
    have hflag : c = '-' ∨ c = '+' ∨ c = ' ' ∨ c = '#' ∨ c = '0' := by
      simpa [flagChars] using hc
    rw [List.foldl_cons]
    rcases hflag with rfl | rfl | rfl | rfl | rfl <;>
      simp [read, ih hcs, withFlags]

theorem isDigit_of_isDigit_ten {c : Char} (h : isDigit 10 c = true) : c.isDigit = true := by
  have hc := toNat_of_isDigit_ten h
  simp only [Char.isDigit, Bool.and_eq_true, decide_eq_true_eq]
  exact hc

/-- A number that is held is held with one more digit. -/
theorem extend_eq {c : Char} (h : isDigit 10 c = true) {w : Option Nat} {n : Nat}
    (hw : w.getD 0 = min n maxField) :
    extend w c = some (min (n * 10 + (digitValue c).getD 0) maxField) := by
  have hc := toNat_of_isDigit_ten h
  have hvalue : (digitValue c).getD 0 = c.toNat - '0'.toNat := by
    rw [digitValue, if_pos ⟨hc.1, hc.2⟩]
    rfl
  rw [extend, hw, hvalue]
  congr 1
  omega

/-- The number that digits write after others that write `n`. -/
def numberFrom (n : Nat) (cs : List Char) : Nat :=
  cs.foldl (fun n c => n * 10 + (digitValue c).getD 0) n

theorem foldl_read_width {cs : List Char} (h : ∀ c ∈ cs, isDigit 10 c = true) (s : Spec)
    (n : Nat) : cs.foldl read (.width, { s with width := some (min n maxField) }) =
      (.width, { s with width := some (min (numberFrom n cs) maxField) }) := by
  induction cs generalizing n with
  | nil => rfl
  | cons c cs ih =>
    obtain ⟨hc, hcs⟩ := List.forall_mem_cons.mp h
    have hpoint : c ≠ '.' := by
      rintro rfl
      exact absurd hc (by decide)
    rw [List.foldl_cons, read, readField, if_neg hpoint, if_pos (isDigit_of_isDigit_ten hc),
      extend_eq hc (n := n) rfl]
    exact ih hcs _

theorem foldl_read_precision {cs : List Char} (h : ∀ c ∈ cs, isDigit 10 c = true) (s : Spec)
    (n : Nat) : cs.foldl read (.precision, { s with precision := some (min n maxField) }) =
      (.precision, { s with precision := some (min (numberFrom n cs) maxField) }) := by
  induction cs generalizing n with
  | nil => rfl
  | cons c cs ih =>
    obtain ⟨hc, hcs⟩ := List.forall_mem_cons.mp h
    rw [List.foldl_cons, read, if_pos (isDigit_of_isDigit_ten hc), extend_eq hc (n := n) rfl]
    exact ih hcs _

/-- A digit that is no zero begins the width. -/
theorem read_digit {c : Char} (h : isDigit 10 c = true) (hzero : c ≠ '0') (s : Spec) :
    read (.flags, s) c = (.width, { s with width := extend s.width c }) := by
  have hc := toNat_of_isDigit_ten h
  have hne {d : Char} (hd : ¬ 48 ≤ d.toNat) : c ≠ d := by
    rintro rfl
    exact hd hc.1
  simp [read, readField, hne (d := '-') (by decide), hne (d := '+') (by decide),
    hne (d := ' ') (by decide), hne (d := '#') (by decide), hne (d := '.') (by decide),
    isDigit_of_isDigit_ten h]

/-- The width that digits give, if there are any. -/
def widthOf (ds : List Char) : Option Nat :=
  if ds = [] then none else some (min (ofDigits 10 ds) maxField)

theorem getD_widthOf_le (ds : List Char) : (widthOf ds).getD 0 ≤ maxField := by
  unfold widthOf
  split
  · exact Nat.zero_le _
  · exact Nat.min_le_right _ _

/-- A width comes before the precision, or there is none. -/
theorem exists_foldl_read_width {cs : List Char} (h : ∀ c ∈ cs, isDigit 10 c = true)
    (hhead : cs.head? ≠ some '0') {s : Spec} (hs : s.width = none) :
    ∃ part, part ≠ .precision ∧
      cs.foldl read (.flags, s) = (part, { s with width := widthOf cs }) := by
  cases cs with
  | nil => exact ⟨.flags, by decide, by rw [widthOf, if_pos rfl, ← hs]; rfl⟩
  | cons c cs =>
    obtain ⟨hc, hcs⟩ := List.forall_mem_cons.mp h
    refine ⟨.width, by decide, ?_⟩
    rw [List.foldl_cons, read_digit hc (fun h0 => hhead (by rw [h0]; rfl)),
      extend_eq hc (n := 0) (by rw [hs]; rfl), foldl_read_width hcs, widthOf,
      if_neg (List.cons_ne_nil c cs)]
    rfl

theorem read_point {part : Part} (h : part ≠ .precision) (s : Spec) :
    read (part, s) '.' = (.precision, { s with precision := some 0 }) := by
  cases part with
  | precision => exact absurd rfl h
  | flags | width => rfl

end Spec

/-- A specification is read as it is written. -/
theorem SpecText.ofChars_chars {t : SpecText} (h : t.IsValid) :
    Spec.ofChars t.chars =
      { left := t.flags.contains '-'
        plus := t.flags.contains '+'
        space := t.flags.contains ' '
        alt := t.flags.contains '#'
        zero := t.flags.contains '0'
        width := Spec.widthOf t.width
        precision := t.precision.map fun ds => min (ofDigits 10 ds) Spec.maxField } := by
  obtain ⟨part, hpart, hwidth⟩ :=
    Spec.exists_foldl_read_width h.width h.head? (s := ({} : Spec).withFlags t.flags) rfl
  have hprecision := h.precision
  rw [Spec.ofChars, chars, List.foldl_append, Spec.foldl_read_flags h.flags, List.foldl_append,
    hwidth]
  cases hp : t.precision with
  | none => simp [Spec.withFlags]
  | some ds =>
    rw [Option.map_some, Option.getD_some, List.foldl_cons, Spec.read_point hpart]
    have := Spec.foldl_read_precision (hprecision ds hp)
      { ({} : Spec).withFlags t.flags with width := Spec.widthOf t.width } 0
    rw [Nat.zero_min] at this
    rw [this]
    simp [Spec.withFlags, Spec.numberFrom, ofDigits]

end StackScript.Format
