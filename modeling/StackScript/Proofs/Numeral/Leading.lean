import StackScript.Proofs.Numeral.Digits

/-!
# The number at the beginning of a text

* `Leading` takes the beginning of a text apart: spaces, a sign, the mark of a base and digits.
  `IsLongest` says that no part could be longer; every text has such parts
  (`exists_isLongest`).
* `IsLongest.leadingInt_eq`: the number that is read is the exact one with its magnitude held at
  `maxMagnitude`.
* `leadingInt_eq_clamped_iff`: it is the exact number held between the least and the greatest of 64
  bits, of which 32 bits remain, unless the exact number reaches the least. The magnitude is held
  before it gets its sign, so the least number of 64 bits is never reached.
-/

namespace StackScript.Numeral

/-- The sign before a number. -/
inductive Sign where
  | none
  | plus
  | minus
  deriving DecidableEq, Repr

/-- A sign as it is written. -/
def Sign.chars : Sign → List Char
  | none => []
  | plus => ['+']
  | minus => ['-']

/-- The mark that tells the base of a number. -/
inductive Mark where
  | decimal
  /-- The digits begin with a zero, which counts as one of them. -/
  | octal
  /-- A zero and an `x`, which may be a capital. -/
  | hex (capital : Bool)
  deriving DecidableEq, Repr

/-- A mark as it is written before the digits. -/
def Mark.chars : Mark → List Char
  | decimal | octal => []
  | hex capital => ['0', if capital then 'X' else 'x']

/-- The base that a mark tells. -/
def Mark.base : Mark → Nat
  | decimal => 10
  | octal => 8
  | hex _ => 16

/-- Whether a text begins with the mark of base sixteen, a digit of this base following. -/
def BeginsHex (cs : List Char) : Prop :=
  ∃ x d ds, cs = '0' :: x :: d :: ds ∧ (x = 'x' ∨ x = 'X') ∧ isDigit 16 d = true

theorem Mark.base_le (mark : Mark) : mark.base ≤ 16 := by
  unfold base
  split <;> decide

/-- The digits and what follows them are what a mark is for: base sixteen has a digit, base eight is
told by a zero without the mark of base sixteen, and base ten is all else. -/
def Mark.Fits : Mark → List Char → Prop
  | decimal, cs => cs.head? ≠ some '0'
  | octal, cs => cs.head? = some '0' ∧ ¬ BeginsHex cs
  | hex _, cs => ∃ d ∈ cs.head?, isDigit 16 d = true

/-- The parts of a text that may begin with a number. -/
structure Leading where
  spaces : List Char
  sign : Sign
  mark : Mark
  digits : List Char
  rest : List Char

namespace Leading

/-- What follows the sign. -/
def unsigned (p : Leading) : List Char := p.mark.chars ++ (p.digits ++ p.rest)

/-- What follows the spaces. -/
def trimmed (p : Leading) : List Char := p.sign.chars ++ p.unsigned

/-- The whole text. -/
def text (p : Leading) : List Char := p.spaces ++ p.trimmed

/-- All parts are what they are called, and as long as they can be. -/
structure IsLongest (p : Leading) : Prop where
  spaces : ∀ c ∈ p.spaces, isSpace c = true
  trimmed : ∀ c ∈ p.trimmed.head?, isSpace c = false
  sign : p.sign = .none → ∀ c ∈ p.unsigned.head?, c ≠ '+' ∧ c ≠ '-'
  mark : p.mark.Fits (p.digits ++ p.rest)
  digits : ∀ c ∈ p.digits, isDigit p.mark.base c = true
  rest : ∀ c ∈ p.rest.head?, isDigit p.mark.base c = false

/-- The exact number, zero if there are no digits. -/
def value (p : Leading) : Int :=
  if p.sign = .minus then -(ofDigits p.mark.base p.digits : Int)
  else ofDigits p.mark.base p.digits

/-- The exact number, or the least or greatest number of 64 bits where it passes one of these. -/
def clamped (p : Leading) : Int := max (-2 ^ 63) (min p.value (2 ^ 63 - 1))

/-! ## Taking a text apart -/

theorem takeWhile_append {α : Type} {f : α → Bool} {as bs : List α} (ha : ∀ c ∈ as, f c = true)
    (hb : ∀ c ∈ bs.head?, f c = false) : (as ++ bs).takeWhile f = as := by
  rw [List.takeWhile_append_of_pos ha]
  cases bs with
  | nil => simp
  | cons b bs => simp [hb b rfl]

theorem dropWhile_append {α : Type} {f : α → Bool} {as bs : List α} (ha : ∀ c ∈ as, f c = true)
    (hb : ∀ c ∈ bs.head?, f c = false) : (as ++ bs).dropWhile f = bs := by
  rw [List.dropWhile_append_of_pos ha]
  cases bs with
  | nil => rfl
  | cons b bs => simp [hb b rfl]

theorem head?_dropWhile {f : Char → Bool} {cs : List Char} {c : Char}
    (h : c ∈ (cs.dropWhile f).head?) : f c = false := by
  have := List.head?_dropWhile_not f cs
  rw [Option.mem_def.mp h] at this
  simpa using this

theorem exists_sign (cs : List Char) : ∃ (sign : Sign) (ds : List Char), cs = sign.chars ++ ds ∧
    (sign = .none → ∀ c ∈ ds.head?, c ≠ '+' ∧ c ≠ '-') := by
  by_cases hplus : cs.head? = some '+'
  · obtain ⟨ds, rfl⟩ := List.head?_eq_some_iff.mp hplus
    exact ⟨.plus, ds, rfl, fun h => by cases h⟩
  by_cases hminus : cs.head? = some '-'
  · obtain ⟨ds, rfl⟩ := List.head?_eq_some_iff.mp hminus
    exact ⟨.minus, ds, rfl, fun h => by cases h⟩
  refine ⟨.none, cs, rfl, fun _ c hc => ⟨?_, ?_⟩⟩
  · rintro rfl
    exact hplus hc
  · rintro rfl
    exact hminus hc

/-- A sign is told from what follows it. -/
theorem splitSign_append {sign : Sign} {cs : List Char}
    (h : sign = .none → ∀ c ∈ cs.head?, c ≠ '+' ∧ c ≠ '-') :
    splitSign (sign.chars ++ cs) = (decide (sign = .minus), cs) := by
  cases sign with
  | plus | minus => rfl
  | none =>
    -- Without a sign, the first character is none.
    unfold Sign.chars splitSign
    split
    · rename_i ds e
      exact absurd rfl (h rfl '-' (by rw [List.nil_append] at e; rw [e]; rfl)).2
    · rename_i ds e
      exact absurd rfl (h rfl '+' (by rw [List.nil_append] at e; rw [e]; rfl)).1
    · rfl

theorem exists_mark (cs : List Char) :
    ∃ (mark : Mark) (ds : List Char), cs = mark.chars ++ ds ∧ mark.Fits ds := by
  by_cases hhex : BeginsHex cs
  · obtain ⟨x, d, ds, rfl, hx, hd⟩ := hhex
    rcases hx with rfl | rfl
    · exact ⟨.hex false, d :: ds, rfl, d, rfl, hd⟩
    · exact ⟨.hex true, d :: ds, rfl, d, rfl, hd⟩
  by_cases hzero : cs.head? = some '0'
  · exact ⟨.octal, cs, rfl, hzero, hhex⟩
  · exact ⟨.decimal, cs, rfl, hzero⟩

/-- Every text has longest parts. -/
theorem exists_isLongest (cs : List Char) : ∃ p : Leading, p.IsLongest ∧ p.text = cs := by
  obtain ⟨sign, unsigned, hsign, hs⟩ := exists_sign (cs.dropWhile isSpace)
  obtain ⟨mark, ds, hmark, hm⟩ := exists_mark unsigned
  have hds := ds.takeWhile_append_dropWhile (p := isDigit mark.base)
  let p : Leading := ⟨cs.takeWhile isSpace, sign, mark, ds.takeWhile (isDigit mark.base),
    ds.dropWhile (isDigit mark.base)⟩
  have hunsigned : p.unsigned = unsigned := by
    rw [Leading.unsigned, hds, hmark]
  have htrimmed : p.trimmed = cs.dropWhile isSpace := by
    rw [Leading.trimmed, hunsigned, hsign]
  refine ⟨p, ⟨?_, ?_, ?_, ?_, ?_, ?_⟩, ?_⟩
  · exact fun c hc => List.mem_takeWhile_imp hc
  · rw [htrimmed]
    exact fun c hc => head?_dropWhile hc
  · rw [hunsigned]
    exact hs
  · rw [hds]
    exact hm
  · exact fun c hc => List.mem_takeWhile_imp hc
  · exact fun c hc => head?_dropWhile hc
  · rw [Leading.text, htrimmed]
    exact List.takeWhile_append_dropWhile

/-! ## What is read -/

namespace IsLongest

variable {p : Leading}

theorem splitSign_eq (h : p.IsLongest) :
    splitSign p.trimmed = (decide (p.sign = .minus), p.unsigned) := splitSign_append h.sign

theorem splitBase_eq (h : p.IsLongest) :
    splitBase p.unsigned = (p.mark.base, p.digits ++ p.rest) := by
  have hmark := h.mark
  unfold Leading.unsigned
  generalize p.digits ++ p.rest = cs at hmark
  cases hm : p.mark with
  | decimal =>
    rw [hm] at hmark
    exact splitBase_of_head?_ne hmark
  | octal =>
    rw [hm] at hmark
    obtain ⟨hzero, hhex⟩ := hmark
    unfold Mark.chars splitBase
    split
    · rename_i x d ds e
      rw [List.nil_append] at e
      rw [if_neg fun hx => hhex ⟨x, d, ds, e, hx⟩, e]
      rfl
    · rename_i e
      rw [List.nil_append] at e
      rw [e]
      rfl
    · rename_i hne
      obtain ⟨ds, rfl⟩ := List.head?_eq_some_iff.mp hzero
      exact absurd rfl (hne ds)
  | hex capital =>
    rw [hm] at hmark
    obtain ⟨d, hd, hdigit⟩ := hmark
    obtain ⟨ds, rfl⟩ := List.head?_eq_some_iff.mp hd
    cases capital <;> exact if_pos ⟨by decide, hdigit⟩

/-- The number that is read is the exact one with its magnitude held. -/
theorem leadingInt_eq (h : p.IsLongest) {text : String} (ht : p.text = text.toList) :
    leadingInt text = Int32.ofInt (max (-maxMagnitude) (min p.value maxMagnitude)) := by
  have hdrop : text.toList.dropWhile isSpace = p.trimmed := by
    rw [← ht, Leading.text]
    exact dropWhile_append h.spaces h.trimmed
  have hdigits : (p.digits ++ p.rest).takeWhile (isDigit p.mark.base) = p.digits :=
    takeWhile_append h.digits h.rest
  have hsign : splitSign (text.toList.dropWhile isSpace) = _ := hdrop ▸ h.splitSign_eq
  rw [leadingInt_of_split hsign h.splitBase_eq, hdigits]
  refine congrArg Int32.ofInt ?_
  by_cases hs : p.sign = .minus
  · simp only [Leading.value, hs, decide_true, if_true]
    omega
  · simp only [Leading.value, hs, decide_false, Bool.false_eq_true, if_false]
    omega

end IsLongest

/-! ## Numbers between blanks -/

section

variable {sign : Sign} {mark : Mark} {ds : List Char} (before after : Nat)

/-- The parts of a number between blanks. -/
def padded (before : Nat) (sign : Sign) (mark : Mark) (ds : List Char) (after : Nat) : Leading :=
  ⟨List.replicate before ' ', sign, mark, ds, List.replicate after ' '⟩

/-- What follows the sign begins with a digit. -/
theorem toNat_head?_padded (hds : ∀ c ∈ ds, isDigit mark.base c = true) (hne : ds ≠ []) :
    ∀ c ∈ (padded before sign mark ds after).unsigned.head?, 48 ≤ c.toNat := by
  obtain ⟨d, es, rfl⟩ := List.exists_cons_of_ne_nil hne
  have hd := toNat_of_isDigit mark.base_le (hds d List.mem_cons_self)
  cases mark with
  | decimal | octal =>
    rintro c ⟨⟩
    exact hd.1
  | hex capital =>
    rintro c ⟨⟩
    decide

/-- The parts are the longest, where the digits are what the mark is for. -/
theorem isLongest_padded (hds : ∀ c ∈ ds, isDigit mark.base c = true) (hne : ds ≠ [])
    (hdecimal : mark = .decimal → ds.head? ≠ some '0')
    (hoctal : mark = .octal → ds.head? = some '0') :
    (padded before sign mark ds after).IsLongest := by
  have hunsigned : ∀ c ∈ (padded before sign mark ds after).unsigned.head?, 48 ≤ c.toNat :=
    toNat_head?_padded before after hds hne
  refine ⟨fun c hc => ?_, fun c hc => ?_, fun _ c hc => ?_, ?_, hds, fun c hc => ?_⟩
  · rw [List.eq_of_mem_replicate hc]
    decide
  · cases sign with
    | none => exact isSpace_of_toNat (Nat.le_trans (by decide) (hunsigned c hc))
    | plus | minus =>
      cases hc
      decide
  · have := hunsigned c hc
    constructor <;> rintro rfl <;> exact absurd this (by decide)
  · obtain ⟨d, es, rfl⟩ := List.exists_cons_of_ne_nil hne
    cases mark with
    | decimal => exact hdecimal rfl
    | octal =>
      refine ⟨hoctal rfl, ?_⟩
      -- After the zero comes an octal digit or a blank, never an `x`.
      rintro ⟨x, y, rest, heq, hx, -⟩
      have hmem : x ∈ (d :: es) ++ List.replicate after ' ' := by
        have : (d :: es) ++ List.replicate after ' ' = '0' :: x :: y :: rest := heq
        simp [this]
      rcases List.mem_append.mp hmem with hmem | hmem
      · have := hds x hmem
        rcases hx with rfl | rfl <;> exact absurd this (by decide)
      · rw [List.eq_of_mem_replicate hmem] at hx
        exact absurd hx (by decide)
    | hex capital => exact ⟨d, rfl, hds d List.mem_cons_self⟩
  · rw [List.eq_of_mem_replicate (List.mem_of_mem_head? hc)]
    rfl

end

/-- A text always has longest parts, and whichever they are: the number that is read of it has the
low 32 bits of the exact number held between the least and the greatest number of 64 bits, exactly
if the exact number is above the least one. If it is not, 1 is read. -/
theorem leadingInt_eq_clamped_iff (text : String) :
    (∃ p : Leading, p.IsLongest ∧ p.text = text.toList) ∧
      ∀ p : Leading, p.IsLongest → p.text = text.toList →
        ((leadingInt text).toInt = p.clamped.bmod (2 ^ 32) ↔ -2 ^ 63 < p.value) ∧
          (p.value ≤ -2 ^ 63 → leadingInt text = 1) := by
  refine ⟨exists_isLongest text.toList, fun p h ht => ?_⟩
  have hmagnitude : (maxMagnitude : Int) = 2 ^ 63 - 1 := by decide
  have hread : leadingInt text = Int32.ofInt (max (-(2 ^ 63 - 1)) (min p.value (2 ^ 63 - 1))) := by
    rw [h.leadingInt_eq ht, hmagnitude]
  have hleast (hv : p.value ≤ -2 ^ 63) : leadingInt text = 1 := by
    have hheld : max (-(2 ^ 63 - 1)) (min p.value (2 ^ 63 - 1)) = -(2 ^ 63 - 1) := by omega
    rw [hread, hheld]
    decide
  refine ⟨⟨fun heq => ?_, fun hv => ?_⟩, hleast⟩
  · by_contra hv
    have hclamped : p.clamped = -2 ^ 63 := by
      rw [Leading.clamped]
      omega
    rw [hleast (by omega), hclamped] at heq
    exact absurd heq (by decide)
  · have hclamped : p.clamped = max (-(2 ^ 63 - 1)) (min p.value (2 ^ 63 - 1)) := by
      rw [Leading.clamped]
      omega
    rw [hread, hclamped, Int32.toInt_ofInt]
    rfl

/-- The least number of 64 bits is read as 1, although its low 32 bits are zeros. -/
theorem leadingInt_eq_clamped_iff_least :
    let p : Leading := ⟨[' '], .minus, .decimal, "9223372036854775808".toList, [';']⟩
    p.IsLongest ∧ leadingInt " -9223372036854775808;" = 1 ∧ p.clamped.bmod (2 ^ 32) = 0 := by
  intro p
  have h : p.IsLongest :=
    { spaces := List.all_eq_true.mp (by decide)
      trimmed := by rintro c ⟨⟩; decide
      sign := fun hs => by cases hs
      mark := by simp [p, Mark.Fits]
      digits := List.all_eq_true.mp (by decide)
      rest := by rintro c ⟨⟩; decide }
  have hv : p.value = -2 ^ 63 := by decide +kernel
  have hc : p.clamped = -2 ^ 63 := by rw [Leading.clamped, hv]; decide
  obtain ⟨-, hread⟩ := leadingInt_eq_clamped_iff " -9223372036854775808;"
  exact ⟨h, (hread p h (by decide +kernel)).2 (by omega), by rw [hc]; decide⟩

end Leading

end StackScript.Numeral
