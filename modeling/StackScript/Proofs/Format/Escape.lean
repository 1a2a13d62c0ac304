import StackScript.Proofs.Format.Pieces

/-!
# Percent signs in plain text

A percent sign that is written twice prints one, so that any text can stand in a template.

* `escape` writes every percent sign of a text twice.
* `pieces_escape`: no piece of the result is a conversion, and so none takes an argument
  (`taken_foldl_escape`).
* `format_escape`: the result prints the text.
-/

namespace StackScript.Format

open Text

/-- The characters with every percent sign written twice. -/
def escape (cs : List Char) : List Char :=
  cs.flatMap fun c => if c = '%' then ['%', '%'] else [c]

theorem escape_percent (cs : List Char) : escape ('%' :: cs) = '%' :: '%' :: escape cs := rfl

theorem escape_cons {c : Char} (h : c ≠ '%') (cs : List Char) :
    escape (c :: cs) = c :: escape cs := by
  rw [escape, List.flatMap_cons, if_neg h]
  rfl

/-- An escaped text is not shorter. -/
theorem size_le_size_escape (cs : List Char) : size cs ≤ size (escape cs) := by
  induction cs with
  | nil => exact Nat.le_refl 0
  | cons c cs ih =>
    by_cases hc : c = '%'
    · rw [hc, escape_percent]
      simp only [size_cons]
      omega
    · rw [escape_cons hc]
      simp only [size_cons]
      omega

/-! ## Pieces of an escaped text -/

/-- The piece that a character of the text becomes. -/
def escapedPiece (c : Char) : Piece := if c = '%' then .percent [] else .literal c

/-- Each character is a piece. The percent sign that opens a conversion is always followed by the
one that ends it, whatever comes next. -/
theorem pieces_escape (cs : List Char) : pieces (escape cs) = cs.map escapedPiece := by
  induction cs with
  | nil => exact pieces_nil
  | cons c cs ih =>
    by_cases hc : c = '%'
    · rw [hc, escape_percent, pieces_percent, piecesOpen_percent, ih]
      rfl
    · rw [escape_cons hc, pieces_literal _ hc, ih, List.map_cons, escapedPiece, if_neg hc]

section

variable (strings : Strings) (args : List Value)

theorem text_escapedPiece (taken : Nat) (c : Char) :
    (escapedPiece c).text strings args taken = [c] := by
  unfold escapedPiece
  split
  · rename_i hc
    rw [hc]
    rfl
  · rfl

theorem takes_escapedPiece (c : Char) : (escapedPiece c).takes = 0 := by
  unfold escapedPiece
  split <;> rfl

theorem printed_escape (taken : Nat) (cs : List Char) :
    printed strings args taken (pieces (escape cs)) = cs := by
  rw [pieces_escape]
  induction cs with
  | nil => rfl
  | cons c cs ih =>
    rw [List.map_cons, printed, text_escapedPiece, takes_escapedPiece, Nat.add_zero, ih]
    rfl

/-! ## The run -/

/-- A percent sign written twice leaves no conversion open and takes no argument. -/
theorem read_percent_percent {p : Progress} (hp : p.opened = none) :
    let q := (p.read strings args '%').read strings args '%'
    q.opened = none ∧ q.taken = p.taken := by
  cases hfull : p.full with
  | true => simp [Progress.read, hfull, hp]
  | false =>
    have hopen : p.read strings args '%' = { p with opened := some [] } := by
      simp [Progress.read, hfull, hp]
    have hclose : (p.read strings args '%').read strings args '%' =
        Progress.emit { p with opened := some [] } ['%'] := by
      rw [hopen]
      simp [Progress.read, hfull]
    rw [hclose, Progress.emit_eq]
    exact ⟨rfl, rfl⟩

theorem read_literal {p : Progress} (hp : p.opened = none) {c : Char} (hc : c ≠ '%') :
    (p.read strings args c).opened = none ∧ (p.read strings args c).taken = p.taken := by
  cases hfull : p.full with
  | true => simp [Progress.read, hfull, hp]
  | false => simp [Progress.read, hfull, hp, hc]

/-- A run over an escaped text takes no argument. -/
theorem taken_foldl_escape (cs : List Char) {p : Progress} (hp : p.opened = none) :
    ((escape cs).foldl (Progress.read strings args) p).taken = p.taken := by
  induction cs generalizing p with
  | nil => rfl
  | cons c cs ih =>
    by_cases hc : c = '%'
    · obtain ⟨hopened, htaken⟩ := read_percent_percent strings args hp
      rw [hc, escape_percent, List.foldl_cons, List.foldl_cons, ih hopened, htaken]
    · obtain ⟨hopened, htaken⟩ := read_literal strings args hp hc
      rw [escape_cons hc, List.foldl_cons, ih hopened, htaken]

end

/-- An escaped text that is not overlong as a template prints the text as it is, and takes no
argument. -/
theorem format_escape (strings : Strings) (text : String) (args : List Value)
    (h : size (escape text.toList) ≤ maxTemplate) :
    format strings (String.ofList (escape text.toList)) args = text ∧
      ((escape text.toList).foldl (Progress.read strings args) {}).taken = 0 := by
  refine ⟨?_, taken_foldl_escape strings args text.toList rfl⟩
  have hroom : size text.toList ≤ maxOutput :=
    (size_le_size_escape text.toList).trans (h.trans (by decide))
  have hrun : ((escape text.toList).foldl (Progress.read strings args) {}).finish =
      text.toList := by
    rw [Progress.finish_foldl_read _ rfl]
    show cut maxOutput (printed strings args 0 (pieces (escape text.toList))) = text.toList
    rw [printed_escape, cut_eq_self hroom]
  unfold format format?
  simp only [String.toList_ofList]
  rw [if_neg (Nat.not_lt.mpr h), hrun, String.ofList_toList]

/-- Percent signs in a row, before a letter, a length modifier and a character of two bytes, and at
the end. -/
theorem format_escape_mixed :
    size (escape "%%d %lé%".toList) ≤ maxTemplate ∧
      format (fun _ => none) "%%%%d %%lé%%" [.int 7] = "%%d %lé%" :=
  ⟨by decide, (format_escape (fun _ => none) "%%d %lé%" [.int 7] (by decide)).1⟩

end StackScript.Format
