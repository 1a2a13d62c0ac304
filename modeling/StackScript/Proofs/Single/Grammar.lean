import StackScript.Proofs.Numeral.Leading
import StackScript.Proofs.Single.Narrow

/-!
# Numerals at the beginning of a text

* `Written` is a numeral by its parts: a sign, digits, a point with digits after it, an exponent.
  `Written.IsNumeral` tells which parts must be there, `Written.magnitude` what it is worth.
* `Written.IsLongest`: no longer numeral begins a text.
* `Written.IsMaximal`: no part could go on with what follows. Every text has such parts
  (`Written.exists_isMaximal`), and those of its longest numeral are such
  (`Written.IsLongest.isMaximal`).
* `Written.IsMaximal.leading?_eq`: whichever they are, they are the parts that are read.
-/

namespace StackScript.Decimal

open Number Numeral

/-! ## Exponents -/

/-- The exponent of a numeral. -/
structure Power where
  capital : Bool
  sign : Sign
  digits : List Char

namespace Power

/-- The letter of an exponent. -/
def letter (p : Power) : Char := if p.capital then 'E' else 'e'

theorem letter_eq (p : Power) : p.letter = 'e' ∨ p.letter = 'E' := by
  unfold letter
  cases p.capital <;> decide

/-- An exponent as it is written. -/
def chars (p : Power) : List Char := p.letter :: (p.sign.chars ++ p.digits)

/-- The number that an exponent writes. -/
def value (p : Power) : ℤ := Exact.signed (decide (p.sign = .minus)) (ofDigits 10 p.digits)

/-- An exponent has digits. -/
structure IsSpelled (p : Power) : Prop where
  ne_nil : p.digits ≠ []
  digits : ∀ c ∈ p.digits, isDigit 10 c = true

end Power

theorem ne_sign_of_isDigit {c : Char} (h : isDigit 10 c = true) : c ≠ '+' ∧ c ≠ '-' := by
  have := toNat_of_isDigit_ten h
  constructor <;> rintro rfl <;> exact absurd this (by decide)

theorem Power.IsSpelled.ne_sign {p : Power} (hp : p.IsSpelled) (rest : List Char) :
    ∀ c ∈ (p.digits ++ rest).head?, c ≠ '+' ∧ c ≠ '-' := by
  obtain ⟨d, ds, hds⟩ := List.exists_cons_of_ne_nil hp.ne_nil
  rw [hds]
  rintro c ⟨⟩
  exact ne_sign_of_isDigit (hp.digits d (hds ▸ List.mem_cons_self))

variable {cs rest : List Char}

/-- Whether a text begins with an exponent. -/
def BeginsPower (cs : List Char) : Prop := ∃ p : Power, p.IsSpelled ∧ p.chars <+: cs

/-- An exponent goes on to the last digit. -/
theorem BeginsPower.exists_power (h : BeginsPower cs) : ∃ (p : Power) (ds : List Char),
    p.IsSpelled ∧ p.chars ++ ds = cs ∧ ∀ c ∈ ds.head?, isDigit 10 c = false := by
  obtain ⟨p, hp, tail, rfl⟩ := h
  obtain ⟨d, ds, hds⟩ := List.exists_cons_of_ne_nil hp.ne_nil
  let rest := p.digits ++ tail
  have hd : rest.takeWhile (isDigit 10) ≠ [] := by
    have hdigit := hp.digits d (hds ▸ List.mem_cons_self)
    simp [rest, hds, hdigit]
  refine ⟨{ p with digits := rest.takeWhile (isDigit 10) }, rest.dropWhile (isDigit 10),
    ⟨hd, fun c hc => List.mem_takeWhile_imp hc⟩, ?_, fun c hc => Leading.head?_dropWhile hc⟩
  simp only [Power.chars, Power.letter, List.cons_append, List.append_assoc,
    List.takeWhile_append_dropWhile, rest]

theorem exists_powerChars (hcs : ∀ c ∈ cs.head?, isDigit 10 c = false) :
    ∃ (power : Option Power) (rest : List Char), power.elim [] Power.chars ++ rest = cs ∧
      (∀ p ∈ power, p.IsSpelled) ∧ (∀ c ∈ rest.head?, isDigit 10 c = false) ∧
      (power = none → ¬ BeginsPower rest) := by
  by_cases h : BeginsPower cs
  · obtain ⟨p, rest, hp, hrest, hdigit⟩ := h.exists_power
    exact ⟨some p, rest, hrest, fun q hq => Option.some.inj hq ▸ hp, hdigit, nofun⟩
  · exact ⟨none, cs, rfl, nofun, hcs, fun _ => h⟩

/-- An exponent is read. -/
theorem leadingExponent_append {p : Power} (hp : p.IsSpelled)
    (hrest : ∀ c ∈ rest.head?, isDigit 10 c = false) :
    leadingExponent (p.chars ++ rest) = (p.value, rest) := by
  have htake := Leading.takeWhile_append hp.digits hrest
  have hdrop := Leading.dropWhile_append hp.digits hrest
  have hsign : splitSign (p.sign.chars ++ (p.digits ++ rest)) = _ :=
    Leading.splitSign_append fun _ => hp.ne_sign rest
  obtain ⟨d, ds, hds⟩ := List.exists_cons_of_ne_nil hp.ne_nil
  rw [Power.chars, List.cons_append, List.append_assoc, leadingExponent, if_pos p.letter_eq, hsign]
  simp only [htake, hdrop]
  rw [Power.value, hds]

/-- After the letter and the sign of an exponent that does not begin, there is no digit. -/
theorem head?_of_not_begins {c : Char} {sign : Sign} {ds : List Char} (hc : c = 'e' ∨ c = 'E')
    (h : ¬ BeginsPower (c :: (sign.chars ++ ds))) : ∀ d ∈ ds.head?, isDigit 10 d = false := by
  intro d hd
  by_contra hdigit
  obtain ⟨tail, rfl⟩ := List.head?_eq_some_iff.mp hd
  refine h ⟨⟨c = 'E', sign, [d]⟩, ⟨List.cons_ne_nil d [],
    List.forall_mem_singleton.mpr (Bool.eq_true_of_not_eq_false hdigit)⟩, tail, ?_⟩
  rw [Power.chars, List.cons_append, List.append_assoc]
  rcases hc with rfl | rfl <;> rfl

/-- Where no exponent begins, none is read. -/
theorem leadingExponent_of_not_begins (h : ¬ BeginsPower cs) : leadingExponent cs = (0, cs) := by
  cases cs with
  | nil => rfl
  | cons c cs =>
    rw [leadingExponent]
    split
    · rename_i hletter
      obtain ⟨sign, ds, rfl, hsign⟩ := Leading.exists_sign cs
      have hnone : ([] ++ ds).takeWhile (isDigit 10) = [] :=
        Leading.takeWhile_append nofun (head?_of_not_begins hletter h)
      rw [List.nil_append] at hnone
      rw [Leading.splitSign_append hsign]
      simp only [hnone]
    · rfl

/-! ## Numerals -/

/-- A numeral by its parts: the fraction is what follows a point. -/
structure Written where
  sign : Sign
  whole : List Char
  fraction : Option (List Char)
  power : Option Power

namespace Written

/-- The digits after the point. -/
def part (w : Written) : List Char := w.fraction.getD []

/-- The point and the digits after it. -/
def pointChars (w : Written) : List Char := w.fraction.elim [] ('.' :: ·)

/-- The digits and the point. -/
def mantissa (w : Written) : List Char := w.whole ++ w.pointChars

/-- The exponent as it is written. -/
def powerChars (w : Written) : List Char := w.power.elim [] Power.chars

/-- A numeral without its sign. -/
def unsigned (w : Written) : List Char := w.mantissa ++ w.powerChars

/-- A numeral as it is written. -/
def chars (w : Written) : List Char := w.sign.chars ++ w.unsigned

/-- The exponent of ten, zero if none is written. -/
def exponent (w : Written) : ℤ := w.power.elim 0 Power.value

/-- What a numeral is worth without its sign. -/
def magnitude (w : Written) : ℚ :=
  (ofDigits 10 w.whole + ofDigits 10 w.part / 10 ^ w.part.length) * 10 ^ w.exponent

/-- All parts are what they are called; there may be no digits before the exponent. -/
structure IsSpelled (w : Written) : Prop where
  whole : ∀ c ∈ w.whole, isDigit 10 c = true
  part : ∀ c ∈ w.part, isDigit 10 c = true
  power : ∀ p ∈ w.power, p.IsSpelled

/-- A numeral has a digit before the point or after it. -/
structure IsNumeral (w : Written) : Prop extends w.IsSpelled where
  some_digit : w.whole ≠ [] ∨ w.part ≠ []

/-- The numeral begins the text, and no longer one does. -/
structure IsLongest (w : Written) (cs : List Char) : Prop extends w.IsNumeral where
  begins : w.chars <+: cs
  longest : ∀ v : Written, v.IsNumeral → v.chars <+: cs → v.chars.length ≤ w.chars.length

/-- No part goes on with what follows. -/
structure IsMaximal (w : Written) (rest : List Char) : Prop extends w.IsSpelled where
  unsigned : w.sign = .none → ∀ c ∈ (w.unsigned ++ rest).head?, c ≠ '+' ∧ c ≠ '-'
  digit : ∀ c ∈ rest.head?, isDigit 10 c = false
  point : w.fraction = none → w.power = none → rest.head? ≠ some '.'
  power_none : w.power = none → ¬ BeginsPower rest

/-- The numeral that is read for the parts. -/
def decimal (w : Written) : Decimal :=
  ⟨ofDigits 10 (w.whole ++ w.part), w.exponent - w.part.length⟩

variable {w : Written}

/-- The numeral that is read is worth what is written. -/
theorem value_decimal (w : Written) : w.decimal.value = w.magnitude := by
  have hten : (10 : ℚ) ≠ 0 := by norm_num
  rw [value, decimal, magnitude, ofDigits_append, zpow_sub₀ hten, zpow_natCast]
  push_cast
  field_simp

/-! ## The longest numeral -/

/-- A text that begins with a numeral has a longest one. -/
theorem exists_isLongest (h : ∃ w : Written, w.IsNumeral ∧ w.chars <+: cs) :
    ∃ w : Written, w.IsLongest cs := by
  classical
  let p (n : ℕ) : Prop := ∃ w : Written, w.IsNumeral ∧ w.chars <+: cs ∧ w.chars.length = n
  obtain ⟨v, hv, hbegins⟩ := h
  obtain ⟨w, hw, hwbegins, hlength⟩ : p (Nat.findGreatest p cs.length) :=
    Nat.findGreatest_spec hbegins.length_le ⟨v, hv, hbegins, rfl⟩
  refine ⟨w, hw, hwbegins, fun u hu hubegins => ?_⟩
  rw [hlength]
  exact Nat.le_findGreatest hubegins.length_le ⟨u, hu, hubegins, rfl⟩

namespace IsNumeral

variable (h : w.IsNumeral)
include h

/-- A numeral begins with a digit or a point. -/
theorem ne_sign (rest : List Char) : ∀ c ∈ (w.unsigned ++ rest).head?, c ≠ '+' ∧ c ≠ '-' := by
  intro c hc
  cases hw : w.whole with
  | cons d ds =>
    rw [unsigned, mantissa, hw] at hc
    obtain rfl : d = c := Option.some.inj hc
    exact ne_sign_of_isDigit (h.whole d (hw ▸ List.mem_cons_self))
  | nil =>
    cases hf : w.fraction with
    | none => exact absurd h.some_digit (by simp [hw, part, hf])
    | some ds =>
      rw [unsigned, mantissa, hw, pointChars, hf] at hc
      obtain rfl : '.' = c := Option.some.inj hc
      decide

/-- A digit goes on with the last part. -/
theorem exists_digit {c : Char} (hc : isDigit 10 c = true) :
    ∃ v : Written, v.IsNumeral ∧ v.chars = w.chars ++ [c] := by
  have hconcat {ds : List Char} (hds : ∀ d ∈ ds, isDigit 10 d = true) :
      ∀ d ∈ ds ++ [c], isDigit 10 d = true :=
    List.forall_mem_append.mpr ⟨hds, List.forall_mem_singleton.mpr hc⟩
  cases hp : w.power with
  | some p =>
    have hp' := h.power p hp
    refine ⟨{ w with power := some { p with digits := p.digits ++ [c] } },
      ⟨⟨h.whole, h.part, ?_⟩, h.some_digit⟩, ?_⟩
    · rintro q ⟨⟩
      exact ⟨by simp, hconcat hp'.digits⟩
    · simp [chars, unsigned, mantissa, pointChars, powerChars, Power.chars, Power.letter, hp]
  | none =>
    cases hf : w.fraction with
    | some ds =>
      have hpart : w.part = ds := by rw [part, hf, Option.getD_some]
      refine ⟨{ w with fraction := some (ds ++ [c]) },
        ⟨⟨h.whole, hconcat (hpart ▸ h.part), h.power⟩, .inr (by simp [part])⟩, ?_⟩
      simp [chars, unsigned, mantissa, pointChars, powerChars, hp, hf]
    | none =>
      refine ⟨{ w with whole := w.whole ++ [c] },
        ⟨⟨hconcat h.whole, h.part, h.power⟩, .inl (by simp)⟩, ?_⟩
      simp [chars, unsigned, mantissa, pointChars, powerChars, hp, hf]

/-- A point goes on with digits. -/
theorem exists_point (hf : w.fraction = none) (hp : w.power = none) :
    ∃ v : Written, v.IsNumeral ∧ v.chars = w.chars ++ ['.'] := by
  have hwhole : w.whole ≠ [] := h.some_digit.resolve_right fun hpart => hpart (by simp [part, hf])
  refine ⟨{ w with fraction := some [] }, ⟨⟨h.whole, nofun, h.power⟩, .inl hwhole⟩, ?_⟩
  simp [chars, unsigned, mantissa, pointChars, powerChars, hp, hf]

/-- An exponent goes on with a numeral that has none. -/
theorem exists_power (hp : w.power = none) {p : Power} (hspelled : p.IsSpelled) :
    ∃ v : Written, v.IsNumeral ∧ v.chars = w.chars ++ p.chars := by
  refine ⟨{ w with power := some p }, ⟨⟨h.whole, h.part, ?_⟩, h.some_digit⟩, ?_⟩
  · rintro q ⟨⟩
    exact hspelled
  · simp [chars, unsigned, mantissa, pointChars, powerChars, hp]

/-- Nothing goes on with a numeral that is all of a text. -/
theorem isMaximal : w.IsMaximal [] where
  toIsSpelled := h.toIsSpelled
  unsigned _ := h.ne_sign []
  digit := nofun
  point _ _ := nofun
  power_none _ := by
    rintro ⟨p, -, hp⟩
    cases List.prefix_nil.mp hp

end IsNumeral

namespace IsLongest

variable (h : w.IsLongest (w.chars ++ rest))
include h

/-- What follows the longest numeral does not begin with anything that makes a numeral of it. -/
theorem eq_nil_of_append {v : Written} (hv : v.IsNumeral) {as : List Char}
    (hchars : v.chars = w.chars ++ as) (has : as <+: rest) : as = [] := by
  have hle := h.longest v hv (hchars ▸ (List.prefix_append_right_inj _).mpr has)
  rw [hchars, List.length_append] at hle
  exact List.eq_nil_of_length_eq_zero (by omega)

/-- No part of the longest numeral goes on with what follows. -/
theorem isMaximal : w.IsMaximal rest := by
  have hfirst {c : Char} (hc : c ∈ rest.head?) : [c] <+: rest := by
    obtain ⟨ds, rfl⟩ := List.head?_eq_some_iff.mp hc
    exact List.prefix_append [c] ds
  refine ⟨h.toIsSpelled, fun _ => h.ne_sign rest, fun c hc => ?_, fun hf hp hpoint => ?_,
    fun hp hpower => ?_⟩
  · by_contra hdigit
    obtain ⟨v, hv, hchars⟩ := h.exists_digit (Bool.eq_true_of_not_eq_false hdigit)
    cases h.eq_nil_of_append hv hchars (hfirst hc)
  · obtain ⟨v, hv, hchars⟩ := h.exists_point hf hp
    cases h.eq_nil_of_append hv hchars (hfirst hpoint)
  · obtain ⟨p, hp', hbegins⟩ := hpower
    obtain ⟨v, hv, hchars⟩ := h.exists_power hp hp'
    cases h.eq_nil_of_append hv hchars hbegins

end IsLongest

/-! ## What is read -/

theorem exists_pointChars (hcs : ∀ c ∈ cs.head?, isDigit 10 c = false) :
    ∃ (fraction : Option (List Char)) (rest : List Char),
      fraction.elim [] ('.' :: ·) ++ rest = cs ∧
      (∀ c ∈ fraction.getD [], isDigit 10 c = true) ∧ (∀ c ∈ rest.head?, isDigit 10 c = false) ∧
      (fraction = none → rest.head? ≠ some '.') := by
  by_cases h : cs.head? = some '.'
  · obtain ⟨ds, rfl⟩ := List.head?_eq_some_iff.mp h
    refine ⟨some (ds.takeWhile (isDigit 10)), ds.dropWhile (isDigit 10), ?_,
      fun c hc => List.mem_takeWhile_imp hc, fun c hc => Leading.head?_dropWhile hc, nofun⟩
    rw [Option.elim_some, List.cons_append, List.takeWhile_append_dropWhile]
  · exact ⟨none, cs, rfl, nofun, hcs, fun _ => h⟩

/-- Every text has parts that do not go on. -/
theorem exists_isMaximal (cs : List Char) :
    ∃ (w : Written) (rest : List Char), w.IsMaximal rest ∧ w.chars ++ rest = cs := by
  obtain ⟨sign, unsigned, rfl, hsign⟩ := Leading.exists_sign cs
  have hnext : ∀ c ∈ (unsigned.dropWhile (isDigit 10)).head?, isDigit 10 c = false :=
    fun c hc => Leading.head?_dropWhile hc
  obtain ⟨fraction, after, hafter, hpart, hdigit, hpoint⟩ := exists_pointChars hnext
  obtain ⟨power, rest, rfl, hspelled, hrest, hpower⟩ := exists_powerChars hdigit
  let w : Written := ⟨sign, unsigned.takeWhile (isDigit 10), fraction, power⟩
  have hunsigned : w.unsigned ++ rest = unsigned := by
    rw [Written.unsigned, mantissa, List.append_assoc, List.append_assoc]
    show _ ++ (fraction.elim [] _ ++ (power.elim [] _ ++ rest)) = _
    rw [hafter, List.takeWhile_append_dropWhile]
  refine ⟨w, rest, ⟨⟨fun c hc => List.mem_takeWhile_imp hc, hpart, hspelled⟩, ?_, hrest,
    fun hf hp => ?_, hpower⟩, ?_⟩
  · rwa [hunsigned]
  · obtain rfl : power = none := hp
    exact hpoint hf
  · rw [chars, List.append_assoc, hunsigned]

namespace IsMaximal

variable (h : w.IsMaximal rest)
include h

theorem splitSign_eq :
    splitSign (w.chars ++ rest) = (decide (w.sign = .minus), w.unsigned ++ rest) := by
  rw [chars, List.append_assoc]
  exact Leading.splitSign_append h.unsigned

/-- What follows the mantissa is no digit. -/
theorem head?_powerChars : ∀ c ∈ (w.powerChars ++ rest).head?, isDigit 10 c = false := by
  cases hp : w.power with
  | none =>
    rw [powerChars, hp]
    exact h.digit
  | some p =>
    rw [powerChars, hp]
    rintro c ⟨⟩
    rcases p.letter_eq with h | h <;> rw [h] <;> decide

theorem head?_pointChars :
    ∀ c ∈ (w.pointChars ++ (w.powerChars ++ rest)).head?, isDigit 10 c = false := by
  cases hf : w.fraction with
  | none =>
    rw [pointChars, hf]
    exact h.head?_powerChars
  | some ds =>
    rw [pointChars, hf]
    rintro c ⟨⟩
    decide

theorem head?_ne_point (hf : w.fraction = none) : (w.powerChars ++ rest).head? ≠ some '.' := by
  cases hp : w.power with
  | none =>
    rw [powerChars, hp]
    exact h.point hf hp
  | some p =>
    rw [powerChars, hp]
    intro heq
    have hletter : p.letter = '.' := Option.some.inj heq
    rcases p.letter_eq with h | h <;> rw [h] at hletter <;> exact absurd hletter (by decide)

theorem leadingFraction_eq : leadingFraction (w.pointChars ++ (w.powerChars ++ rest)) =
    (w.part, w.powerChars ++ rest) := by
  cases hf : w.fraction with
  | none =>
    rw [pointChars, part, hf, Option.elim_none, List.nil_append, Option.getD_none]
    unfold leadingFraction
    split
    · rename_i e
      exact absurd (congrArg List.head? e) (h.head?_ne_point hf)
    · rfl
  | some ds =>
    have hpart : w.part = ds := by rw [part, hf, Option.getD_some]
    have hds := hpart ▸ h.part
    rw [pointChars, hf, hpart]
    exact Prod.ext (Leading.takeWhile_append hds h.head?_powerChars)
      (Leading.dropWhile_append hds h.head?_powerChars)

theorem leadingExponent_eq : leadingExponent (w.powerChars ++ rest) = (w.exponent, rest) := by
  cases hp : w.power with
  | none =>
    rw [powerChars, exponent, hp]
    exact leadingExponent_of_not_begins (h.power_none hp)
  | some p =>
    rw [powerChars, exponent, hp]
    exact leadingExponent_append (h.power p hp) h.digit

/-- The parts are read, unless there are no digits before the exponent. -/
theorem leading?_eq : leading? (w.unsigned ++ rest) =
    if w.whole = [] ∧ w.part = [] then none else some (w.decimal, rest) := by
  have htake : (w.unsigned ++ rest).takeWhile (isDigit 10) = w.whole := by
    rw [Written.unsigned, mantissa, List.append_assoc, List.append_assoc]
    exact Leading.takeWhile_append h.whole h.head?_pointChars
  have hdrop : (w.unsigned ++ rest).dropWhile (isDigit 10) =
      w.pointChars ++ (w.powerChars ++ rest) := by
    rw [Written.unsigned, mantissa, List.append_assoc, List.append_assoc]
    exact Leading.dropWhile_append h.whole h.head?_pointChars
  simp only [leading?, htake, hdrop, h.leadingFraction_eq, h.leadingExponent_eq, decimal,
    Bool.and_eq_true, List.isEmpty_iff]

end IsMaximal

end Written

end StackScript.Decimal
