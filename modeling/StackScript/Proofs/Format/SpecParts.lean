import StackScript.Proofs.Format.SpecText
import StackScript.Proofs.Number.Word
import StackScript.Text.Split

/-!
# Specifications in any text

Whatever stands between the percent sign and the letter is read as flags, a width and a precision.

* Characters that mean nothing are passed over (`foldl_read_meant`), and so are those that mean
  nothing within the width or the precision (`foldl_read_filter`).
* `flagPart`, `widthPart` and `precisionPart?` are the parts that are left, `ofChars_eq` what they
  are read as.
* `extendWord?` takes one more digit in words; the numbers that are read are small enough for it
  (`extendWord?_ofNat`).
* `ofChars_parts` is the statement for all texts.
-/

namespace StackScript.Format

open Numeral Text

namespace Spec

/-- Whether a character means something in a specification: a flag, a digit or a point. -/
def isMeant (c : Char) : Bool := flagChars.contains c || isDigit 10 c || c == '.'

/-- The characters that mean something. -/
def meant (cs : List Char) : List Char := cs.filter isMeant

/-- Whether a character begins a width: a digit that is no flag. -/
def isLead (c : Char) : Bool := isDigit 10 c && c != '0'

/-- What comes before the width and the precision. -/
def flagPart (cs : List Char) : List Char := cs.takeWhile fun c => !isLead c && c != '.'

/-- The digits before the first point, from the first one on that is no zero. -/
def widthPart (cs : List Char) : List Char :=
  ((before '.' cs).dropWhile fun c => !isLead c).filter (isDigit 10)

/-- The digits after the first point, if there is one. -/
def precisionPart? (cs : List Char) : Option (List Char) :=
  (splitOnce? '.' cs).map fun p => p.2.filter (isDigit 10)

/-! ## Characters that are passed over -/

theorem isDigit_eq_isDigit_ten (c : Char) : c.isDigit = isDigit 10 c := by
  rw [Bool.eq_iff_iff]
  refine ⟨fun h => ?_, isDigit_of_isDigit_ten⟩
  have hc : '0' ≤ c ∧ c ≤ '9' := by
    simp only [Char.isDigit, Bool.and_eq_true, decide_eq_true_eq] at h
    exact h
  have hle : c.toNat ≤ 57 := hc.2
  rw [isDigit, digitValue, if_pos hc]
  simp
  omega

variable {c : Char} {cs : List Char}

theorem read_of_not_meant (h : isMeant c = false) (st : Part × Spec) : read st c = st := by
  simp only [isMeant, flagChars, Bool.or_eq_false_iff] at h
  obtain ⟨⟨hflags, hdigit⟩, hpoint⟩ := h
  obtain ⟨part, s⟩ := st
  have hdigit' : c.isDigit = false := (isDigit_eq_isDigit_ten c).trans hdigit
  cases part <;> simp_all [read, readField]

/-- Only characters that mean something count. -/
theorem foldl_read_meant (cs : List Char) (st : Part × Spec) :
    (meant cs).foldl read st = cs.foldl read st := by
  rw [meant, List.foldl_filter]
  congr 1
  funext st c
  split
  · rfl
  · rename_i h
    exact (read_of_not_meant (by simpa using h) st).symm

/-- A width that has begun goes on up to a point, a precision to the end, and only digits count. -/
theorem read_of_ne_flags {part : Part} (hpart : part ≠ .flags) (h : part = .width → c ≠ '.')
    (s : Spec) : ∃ s', read (part, s) c = (part, s') ∧ (isDigit 10 c = false → s' = s) := by
  cases part with
  | flags => exact absurd rfl hpart
  | width =>
    rw [read, readField, if_neg (h rfl), isDigit_eq_isDigit_ten]
    split
    · rename_i hc
      exact ⟨_, rfl, fun hn => absurd hc (Bool.eq_false_iff.mp hn)⟩
    · exact ⟨s, rfl, fun _ => rfl⟩
  | precision =>
    rw [read, isDigit_eq_isDigit_ten]
    split
    · rename_i hc
      exact ⟨_, rfl, fun hn => absurd hc (Bool.eq_false_iff.mp hn)⟩
    · exact ⟨s, rfl, fun _ => rfl⟩

/-- After the flags only digits count. -/
theorem foldl_read_filter {part : Part} (hpart : part ≠ .flags) (h : part = .width → '.' ∉ cs)
    (s : Spec) : cs.foldl read (part, s) = (cs.filter (isDigit 10)).foldl read (part, s) := by
  induction cs generalizing s with
  | nil => rfl
  | cons c cs ih =>
    have hc : part = .width → c ≠ '.' := fun hw => by
      rintro rfl
      exact h hw List.mem_cons_self
    have hcs : part = .width → '.' ∉ cs := fun hw hmem => h hw (List.mem_cons_of_mem c hmem)
    obtain ⟨s', hread, hkeep⟩ := read_of_ne_flags hpart hc s
    rw [List.foldl_cons, hread, ih hcs]
    cases hdigit : isDigit 10 c with
    | true => rw [List.filter_cons_of_pos hdigit, List.foldl_cons, hread]
    | false => rw [List.filter_cons_of_neg (by simp [hdigit]), hkeep hdigit]

/-- A digit that is no flag begins a width, and from it on only digits count. -/
theorem foldl_read_lead (hlead : ∀ c ∈ cs.head?, isLead c = true) (h : '.' ∉ cs) (s : Spec) :
    cs.foldl read (.flags, s) = (cs.filter (isDigit 10)).foldl read (.flags, s) := by
  cases cs with
  | nil => rfl
  | cons c cs =>
    simp only [List.mem_cons, not_or] at h
    obtain ⟨hdigit, hzero⟩ := Bool.and_eq_true_iff.mp (hlead c rfl)
    rw [List.filter_cons_of_pos hdigit, List.foldl_cons, List.foldl_cons,
      read_digit hdigit (by simpa using hzero), foldl_read_filter (by decide) fun _ => h.2]

/-! ## The parts -/

theorem mem_flagChars_of_mem_flagPart (hcs : ∀ c ∈ cs, isMeant c = true) (hc : c ∈ flagPart cs) :
    c ∈ flagChars := by
  have hpart := List.mem_takeWhile_imp hc
  have hmeant := hcs c ((List.takeWhile_sublist _).mem hc)
  simp only [isMeant, isLead, flagChars] at *
  grind

theorem flagPart_eq (cs : List Char) :
    flagPart cs = (before '.' cs).takeWhile fun c => !isLead c := by
  rw [flagPart, before, List.takeWhile_takeWhile]
  congr 1
  funext c
  simp [bne, beq_eq_decide]

theorem head?_dropWhile_lead (cs : List Char) :
    ∀ c ∈ (cs.dropWhile fun c => !isLead c).head?, isLead c = true := by
  intro c hc
  have := List.head?_dropWhile_not (fun c => !isLead c) cs
  grind

/-- What comes before the first point. -/
theorem foldl_read_before (hcs : ∀ c ∈ cs, isMeant c = true) :
    ∃ part, part ≠ .precision ∧ (before '.' cs).foldl read (.flags, {}) =
      (part, { ({} : Spec).withFlags (flagPart cs) with width := widthOf (widthPart cs) }) := by
  have hrest : '.' ∉ (before '.' cs).dropWhile fun c => !isLead c :=
    fun h => not_mem_before '.' cs ((List.dropWhile_sublist _).mem h)
  have hsplit := List.takeWhile_append_dropWhile (p := fun c => !isLead c) (l := before '.' cs)
  rw [← flagPart_eq] at hsplit
  have hdigits : ∀ c ∈ widthPart cs, isDigit 10 c = true := fun c hc => (List.mem_filter.mp hc).2
  have hhead : (widthPart cs).head? ≠ some '0' := by
    have hlead := head?_dropWhile_lead (before '.' cs)
    unfold widthPart
    generalize ((before '.' cs).dropWhile fun c => !isLead c) = rest at hlead ⊢
    cases rest with
    | nil => simp
    | cons c rest =>
      obtain ⟨hdigit, hzero⟩ := Bool.and_eq_true_iff.mp (hlead c rfl)
      rw [List.filter_cons_of_pos hdigit]
      simpa using hzero
  obtain ⟨part, hpart, hwidth⟩ :=
    exists_foldl_read_width hdigits hhead (s := ({} : Spec).withFlags (flagPart cs)) rfl
  refine ⟨part, hpart, ?_⟩
  rw [← hwidth, ← hsplit, List.foldl_append,
    foldl_read_flags fun c hc => mem_flagChars_of_mem_flagPart hcs hc,
    foldl_read_lead (head?_dropWhile_lead _) hrest]
  rfl

/-- What characters that mean something are read as. -/
theorem foldl_read_eq (hcs : ∀ c ∈ cs, isMeant c = true) :
    (cs.foldl read (.flags, {})).2 =
      { ({} : Spec).withFlags (flagPart cs) with
        width := widthOf (widthPart cs)
        precision := (precisionPart? cs).map fun ds => min (ofDigits 10 ds) maxField } := by
  obtain ⟨part, hpart, hbefore⟩ := foldl_read_before hcs
  unfold precisionPart?
  cases hs : splitOnce? '.' cs with
  | none =>
    have hall : before '.' cs = cs := before_eq_self (splitOnce?_eq_none_iff.mp hs)
    rw [hall] at hbefore
    rw [hbefore]
    rfl
  | some p =>
    obtain ⟨a, b⟩ := p
    obtain ⟨hcut, ha⟩ := splitOnce?_eq_some_iff.mp hs
    have hall : before '.' cs = a := by rw [hcut, before_append b ha]
    rw [hall] at hbefore
    have hdigits : ∀ c ∈ b.filter (isDigit 10), isDigit 10 c = true :=
      fun c hc => (List.mem_filter.mp hc).2
    have hfilter (s : Spec) : b.foldl read (.precision, s) =
        (b.filter (isDigit 10)).foldl read (.precision, s) :=
      foldl_read_filter (by decide) (by nofun) s
    have hafter := foldl_read_precision hdigits
      { ({} : Spec).withFlags (flagPart cs) with width := widthOf (widthPart cs) } 0
    rw [Nat.zero_min] at hafter
    -- The parts are those of the whole text, so only the text that is read is taken apart.
    have hread : cs.foldl read (.flags, {}) = (a ++ '.' :: b).foldl read (.flags, {}) := by
      rw [← hcut]
    rw [hread, List.foldl_append, hbefore, List.foldl_cons, read_point hpart,
      hfilter, hafter]
    rfl

/-- A text is read by the parts that are left of it without the characters that mean nothing. -/
theorem ofChars_eq (cs : List Char) :
    ofChars cs =
      { ({} : Spec).withFlags (flagPart (meant cs)) with
        width := widthOf (widthPart (meant cs))
        precision := (precisionPart? (meant cs)).map fun ds => min (ofDigits 10 ds) maxField } := by
  rw [ofChars, ← foldl_read_meant]
  exact foldl_read_eq fun c hc => (List.mem_filter.mp hc).2

/-! ## Numbers in words -/

/-- A number with one digit more, held at `maxField`, where product and sum are words. -/
def extendWord? (n : UInt64) (digit : Char) : Option UInt64 := do
  let tens ← Number.Word.mul? n 10
  let sum ← Number.Word.add? tens (.ofNat (digit.toNat - '0'.toNat))
  pure (if sum ≤ .ofNat maxField then sum else .ofNat maxField)

/-- Numbers that are held leave room for one more digit. -/
theorem extendWord?_ofNat {n : Option Nat} (hn : n.getD 0 ≤ maxField) (hc : isDigit 10 c = true) :
    (extendWord? (.ofNat (n.getD 0)) c).map UInt64.toNat = extend n c := by
  obtain ⟨-, hhigh⟩ := toNat_of_isDigit_ten hc
  have hzero : '0'.toNat = 48 := rfl
  have hmax : maxField = 5120 := rfl
  have hmul : Number.Word.mul? (.ofNat (n.getD 0)) 10 = some (.ofNat (n.getD 0 * 10)) :=
    Number.Word.mul?_ofNat (b := 10) (by omega) (by omega) (by decide)
  have hadd := Number.Word.add?_ofNat (a := n.getD 0 * 10) (b := c.toNat - '0'.toNat) (by omega)
  have hsum := Number.Word.toNat_ofNat (a := n.getD 0 * 10 + (c.toNat - '0'.toNat)) (by omega)
  have hfield := Number.Word.toNat_ofNat (a := maxField) (by decide)
  simp only [extendWord?, hmul, hadd, bind, Option.bind, pure, Option.map_some, extend]
  congr 1
  split
  · rename_i hle
    rw [UInt64.le_iff_toNat_le, hsum, hfield] at hle
    rw [hsum, Nat.min_eq_left hle]
  · rename_i hlt
    rw [UInt64.le_iff_toNat_le, hsum, hfield] at hlt
    rw [hfield, Nat.min_eq_right (Nat.le_of_not_le hlt)]

/-- Every text is read by the characters in it that mean something. Flags are those before the first
digit that is no zero and before the first point. The width is the number of the digits from there
to the first point, the precision that of all digits after it, and zero if there are none; both are
held at `maxField`. Neither passes it at any point of a text, so one digit more never leaves a
word. -/
theorem ofChars_parts (cs : List Char) :
    ofChars cs =
        { left := (flagPart (meant cs)).contains '-'
          plus := (flagPart (meant cs)).contains '+'
          space := (flagPart (meant cs)).contains ' '
          alt := (flagPart (meant cs)).contains '#'
          zero := (flagPart (meant cs)).contains '0'
          width :=
            if widthPart (meant cs) = [] then none
            else some (min (ofDigits 10 (widthPart (meant cs))) maxField)
          precision :=
            (precisionPart? (meant cs)).map fun ds => min (ofDigits 10 ds) maxField } ∧
      (ofChars cs).width.getD 0 ≤ maxField ∧ (ofChars cs).precision.getD 0 ≤ maxField ∧
      ∀ c, isDigit 10 c = true →
        (extendWord? (.ofNat ((ofChars cs).width.getD 0)) c).map UInt64.toNat =
          extend (ofChars cs).width c ∧
        (extendWord? (.ofNat ((ofChars cs).precision.getD 0)) c).map UInt64.toNat =
          extend (ofChars cs).precision c := by
  have hwidth : (ofChars cs).width.getD 0 ≤ maxField := by
    rw [ofChars_eq]
    show (widthOf _).getD 0 ≤ maxField
    unfold widthOf
    split
    · exact Nat.zero_le _
    · exact Nat.min_le_right _ _
  have hprecision : (ofChars cs).precision.getD 0 ≤ maxField := by
    rw [ofChars_eq]
    dsimp only
    cases precisionPart? (meant cs) with
    | none => exact Nat.zero_le _
    | some ds => exact Nat.min_le_right _ _
  refine ⟨?_, hwidth, hprecision, fun c hc =>
    ⟨extendWord?_ofNat hwidth hc, extendWord?_ofNat hprecision hc⟩⟩
  rw [ofChars_eq]
  simp [withFlags, widthOf]

/-- Characters that mean nothing, blanks and a second point within the parts, and a width that is
held when one more digit comes. -/
theorem ofChars_parts_mixed :
    ofChars "*0-1x0 .0.7".toList =
        { left := true, zero := true, width := some 10, precision := some 7 } ∧
      (extendWord? (.ofNat ((ofChars "99999999".toList).width.getD 0)) '9').map UInt64.toNat =
        some 5120 := by
  obtain ⟨hmixed, -⟩ := ofChars_parts "*0-1x0 .0.7".toList
  obtain ⟨hlong, -, -, hdigit⟩ := ofChars_parts "99999999".toList
  constructor
  · rw [hmixed]
    decide
  · rw [(hdigit '9' (by decide)).1, hlong]
    decide

end Spec

end StackScript.Format
