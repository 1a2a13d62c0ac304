import StackScript.Proofs.Format.Hex
import StackScript.Proofs.Format.Point

/-!
# Numbers in significant digits

The form that prints so many significant digits, positional or with an exponent of ten, read back as
an exact number.

* `DecimalNumeral` is what such a text tells. `read?` takes a text apart, and refuses a point
  without digits after it and an exponent without its sign or of fewer than two digits.
* `Denotes`: a numeral is worth a number rounded to so many digits, has an exponent where that of
  the rounded number asks for one, and no zero at the end of its fraction.
* `generalForm_eq`: both forms print the same significant digits (`generalNumeral`).
* `generalForm_denotes`: what is printed denotes the magnitude, in either case of the letters.
-/

namespace StackScript.Format

open Number Numeral

/-- The parts of a number in base ten that may have an exponent. -/
structure DecimalNumeral where
  whole : List Char
  /-- The digits after the point; without a point there are none. -/
  fraction : List Char
  exponent : Option Int
  deriving DecidableEq, Repr

namespace DecimalNumeral

/-- What the number is worth. -/
def value (n : DecimalNumeral) : ℚ :=
  (ofDigits 10 n.whole + ofDigits 10 n.fraction / 10 ^ n.fraction.length) *
    10 ^ n.exponent.getD 0

/-- The digits after a point, if there is one, and what follows them. -/
def readFraction? : List Char → Option (List Char × List Char)
  | '.' :: cs =>
    let ds := cs.takeWhile (isDigit 10)
    if ds = [] then none else some (ds, cs.dropWhile (isDigit 10))
  | cs => some ([], cs)

/-- The exponent that a text is, if any: a mark, a sign and at least two digits. -/
def readExponent? : List Char → Option (Option Int)
  | [] => some none
  | mark :: sign :: ds =>
    if (mark = 'e' ∨ mark = 'E') ∧ (sign = '+' ∨ sign = '-') ∧ 2 ≤ ds.length then
      (natOf? 10 ds).map fun e => some (Exact.signed (sign = '-') e)
    else none
  | [_] => none

/-- Reads a whole text: digits, a point with digits after it, and an exponent, of which the last two
may be left out. -/
def read? (cs : List Char) : Option DecimalNumeral :=
  let whole := cs.takeWhile (isDigit 10)
  if whole = [] then none
  else
    (readFraction? (cs.dropWhile (isDigit 10))).bind fun (fraction, rest) =>
      (readExponent? rest).map fun e => ⟨whole, fraction, e⟩

/-- A numeral stands for a number in `p` significant digits: it is worth the number rounded to them,
and the exponent of the first digit of the rounded number tells whether the numeral has one. Then
one digit is before the point. -/
structure Denotes (n : DecimalNumeral) (p : Nat) (m : ℚ) : Prop where
  rounded : IsRounded p m n.value
  exponent : n.exponent =
    if -4 ≤ Int.log 10 n.value ∧ Int.log 10 n.value < p then none
    else some (Int.log 10 n.value)
  whole : n.exponent ≠ none → n.whole.length = 1
  fraction : n.fraction.getLast? ≠ some '0'

/-! ## Reading -/

section

variable {whole ds es : List Char}

theorem readFraction?_append (hds : ∀ c ∈ ds, isDigit 10 c = true)
    (hes : ∀ c ∈ es.head?, isDigit 10 c = false) (hpoint : es.head? ≠ some '.') :
    readFraction? (Number.fraction ds ++ es) = some (ds, es) := by
  cases ds with
  | nil =>
    show readFraction? es = some ([], es)
    unfold readFraction?
    split
    · exact absurd rfl hpoint
    · rfl
  | cons d ds =>
    have htake := Leading.takeWhile_append hds hes
    have hdrop := Leading.dropWhile_append hds hes
    show readFraction? ('.' :: (d :: ds ++ es)) = _
    simp only [readFraction?, htake, hdrop]
    exact if_neg (List.cons_ne_nil d ds)

/-- A text of such parts is read as these parts. -/
theorem read?_append {e : Option Int} (hne : whole ≠ [])
    (hwhole : ∀ c ∈ whole, isDigit 10 c = true) (hds : ∀ c ∈ ds, isDigit 10 c = true)
    (hes : ∀ c ∈ es.head?, isDigit 10 c = false) (hpoint : es.head? ≠ some '.')
    (he : readExponent? es = some e) :
    read? (whole ++ (Number.fraction ds ++ es)) = some ⟨whole, ds, e⟩ := by
  have hhead : ∀ c ∈ (Number.fraction ds ++ es).head?, isDigit 10 c = false := by
    cases ds with
    | nil => exact hes
    | cons d ds =>
      intro c hc
      obtain rfl : '.' = c := Option.some.inj hc
      decide
  rw [read?, Leading.takeWhile_append hwhole hhead, Leading.dropWhile_append hwhole hhead]
  simp only [if_neg hne, readFraction?_append hds hes hpoint, Option.bind_some, he, Option.map_some]

/-- A printed exponent is read back. -/
theorem readExponent?_exponentPart {mark : Char} (hmark : mark = 'e' ∨ mark = 'E') (e : Int) :
    readExponent? (exponentPart mark 2 e) = some (some e) := by
  have hlen : 2 ≤ (padZeros 2 (digits 10 e.natAbs)).length := by
    rw [length_padZeros]
    exact le_max_left _ _
  have hsign (negative : Bool) : ((if negative then '-' else '+') = '+' ∨
      (if negative then '-' else '+') = '-') ∧
        decide ((if negative then '-' else '+') = '-') = negative := by
    cases negative <;> decide
  obtain ⟨hsign, hnegative⟩ := hsign (decide (e < 0))
  simp only [decide_eq_true_eq] at hsign hnegative
  rw [exponentPart, readExponent?, if_pos ⟨hmark, hsign, hlen⟩, natOf?_padZeros, Option.map_some,
    hnegative, signed_natAbs]

/-- The exponent as it is printed, if there is one. -/
def exponentText : Option Int → List Char
  | none => []
  | some e => exponentPart 'e' 2 e

/-- A numeral as it is printed. -/
def text (n : DecimalNumeral) : List Char :=
  n.whole ++ (Number.fraction n.fraction ++ exponentText n.exponent)

/-- A numeral is read back from what is printed, in either case of the letters. -/
theorem read?_text (capital : Bool) (n : DecimalNumeral) (hne : n.whole ≠ [])
    (hwhole : ∀ c ∈ n.whole, isDigit 10 c = true)
    (hfraction : ∀ c ∈ n.fraction, isDigit 10 c = true) :
    read? (inCase capital n.text) = some n := by
  have hcase {cs : List Char} (hcs : ∀ c ∈ cs, isDigit 10 c = true) : inCase capital cs = cs :=
    inCase_eq_self capital fun c hc => by
      have := toNat_of_isDigit_ten (hcs c hc)
      omega
  have hpoint : inCase capital (Number.fraction n.fraction) = Number.fraction n.fraction := by
    unfold Number.fraction
    split
    · cases capital <;> rfl
    · rw [← List.singleton_append, inCase_append, hcase hfraction]
      cases capital <;> rfl
  rw [text, inCase_append, inCase_append, hcase hwhole, hpoint]
  cases hexponent : n.exponent with
  | none =>
    have hnone : inCase capital (exponentText none) = [] := by cases capital <;> rfl
    rw [hnone]
    refine (read?_append hne hwhole hfraction (by simp) (by simp) rfl).trans ?_
    rw [← hexponent]
  | some e =>
    have hmark : (if capital then Char.toUpper 'e' else 'e') = 'e' ∨
        (if capital then Char.toUpper 'e' else 'e') = 'E' := by
      cases capital <;> decide
    rw [exponentText, inCase_exponentPart]
    refine (read?_append hne hwhole hfraction ?_ ?_ (readExponent?_exponentPart hmark e)).trans ?_
    · intro c hc
      obtain rfl := Option.some.inj hc
      cases capital <;> decide
    · intro hc
      have := Option.some.inj hc
      cases capital <;> exact absurd this (by decide)
    · rw [← hexponent]

end

end DecimalNumeral

/-! ## Zeros at the end -/

theorem dropTrailing_append (f : Char → Bool) (as bs : List Char) :
    dropTrailing f (as ++ bs) =
      if dropTrailing f bs = [] then dropTrailing f as else as ++ dropTrailing f bs := by
  unfold dropTrailing
  simp only [List.reverse_append, List.dropWhile_append, List.isEmpty_iff, List.reverse_eq_nil_iff]
  split
  · rfl
  · rw [List.reverse_append, List.reverse_reverse]

theorem dropTrailing_eq_self {f : Char → Bool} {cs : List Char} (h : ∀ c ∈ cs, f c = false) :
    dropTrailing f cs = cs := by
  unfold dropTrailing
  rw [List.dropWhile_eq_self_iff.mpr, List.reverse_reverse]
  intro hpos
  rw [h _ (List.mem_reverse.mp (List.getElem_mem hpos))]
  decide

/-- Places lose the zeros at their end, and the point if there is nothing else. -/
theorem stripFraction_append {whole ds : List Char} (hwhole : '.' ∉ whole) (hds : '.' ∉ ds) :
    stripFraction (whole ++ fraction ds) = whole ++ fraction (dropTrailing (· == '0') ds) := by
  have hnone {cs : List Char} (hcs : '.' ∉ cs) : ∀ c ∈ cs, (c == '.') = false := fun c hc =>
    beq_eq_false_iff_ne.mpr fun h => hcs (h ▸ hc)
  cases ds with
  | nil =>
    show stripFraction (whole ++ []) = whole ++ []
    rw [List.append_nil, stripFraction, if_neg hwhole]
  | cons d ds =>
    have hpoint : '.' ∈ whole ++ fraction (d :: ds) := by simp [fraction]
    have hzeros : dropTrailing (· == '0') ['.'] = ['.'] := rfl
    have hsplit : whole ++ fraction (d :: ds) = whole ++ ['.'] ++ (d :: ds) := by simp [fraction]
    rw [stripFraction, if_pos hpoint, hsplit, dropTrailing_append]
    split
    · rename_i hall
      have hlast : dropTrailing (· == '.') ['.'] = [] := rfl
      rw [hall, dropTrailing_append (· == '0'), hzeros, if_neg (List.cons_ne_nil _ _),
        dropTrailing_append (· == '.'), if_pos hlast, dropTrailing_eq_self (hnone hwhole)]
      exact (List.append_nil whole).symm
    · rename_i hsome
      have hkept : '.' ∉ dropTrailing (· == '0') (d :: ds) := mt mem_of_mem_dropTrailing hds
      have hself := dropTrailing_eq_self (hnone hkept)
      rw [dropTrailing_append (· == '.'), hself, if_neg hsome, fraction,
        if_neg (mt List.isEmpty_iff.mp hsome), List.append_assoc, List.singleton_append]

/-! ## Units of a place -/

theorem places_eq (p n : Nat) :
    places p n = digits 10 (n / 10 ^ p) ++ fraction (placeDigits 10 p (n % 10 ^ p)) := rfl

namespace DecimalNumeral

/-- So many units of a place, without zeros at the end of the fraction. -/
def ofUnits (p n : Nat) (e : Option Int) : DecimalNumeral :=
  { whole := digits 10 (n / 10 ^ p)
    fraction := dropTrailing (· == '0') (placeDigits 10 p (n % 10 ^ p))
    exponent := e }

theorem isDigit_ofUnits (p n : Nat) (e : Option Int) :
    (∀ c ∈ (ofUnits p n e).whole, isDigit 10 c = true) ∧
      ∀ c ∈ (ofUnits p n e).fraction, isDigit 10 c = true := by
  refine ⟨fun c hc => isDigit_ten_of_mem_digits hc, fun c hc => ?_⟩
  exact isDigit_of_mem_placeDigits (by decide) (by decide) (mem_of_mem_dropTrailing hc)

theorem text_ofUnits (p n : Nat) (e : Option Int) :
    (ofUnits p n e).text = stripFraction (places p n) ++ exponentText e := by
  have hpoint : '.' ∉ placeDigits 10 p (n % 10 ^ p) := fun h =>
    absurd (isDigit_of_mem_placeDigits (by decide) (by decide) h) (by decide)
  rw [places_eq, stripFraction_append (point_notMem_digits _) hpoint, List.append_assoc]
  rfl

/-- The zeros that are left out are worth nothing. -/
theorem value_ofUnits (p n : Nat) (e : Option Int) :
    (ofUnits p n e).value = n * 10 ^ (e.getD 0 - p) := by
  have hlt : n % 10 ^ p < 10 ^ p := Nat.mod_lt _ (by positivity)
  obtain ⟨k, hk⟩ := exists_dropTrailing_append (placeDigits 10 p (n % 10 ^ p))
  have hlen := congrArg List.length hk
  have hdigits := congrArg (ofDigits 10) hk
  rw [List.length_append, List.length_replicate, length_placeDigits (by decide) hlt] at hlen
  rw [ofDigits_append, ofDigits_zeros, List.length_replicate, Nat.add_zero,
    ofDigits_placeDigits (by decide) (by decide) hlt] at hdigits
  unfold value ofUnits
  dsimp only
  generalize dropTrailing (· == '0') (placeDigits 10 p (n % 10 ^ p)) = ds at hlen hdigits
  have hsum : (n : ℚ) = (n / 10 ^ p : ℕ) * 10 ^ p + ofDigits 10 ds * 10 ^ k := by
    have := Nat.div_add_mod' n (10 ^ p)
    rw [← hdigits] at this
    exact_mod_cast this.symm
  rw [ofDigits_digits (by decide) (by decide), zpow_sub₀ (by norm_num), zpow_natCast, hsum]
  generalize n / 10 ^ p = w
  rw [← hlen, pow_add]
  field_simp

end DecimalNumeral

/-! ## What is printed -/

/-- What `p + 1` significant digits and the exponent of the first of them are printed as. -/
def generalNumeral (p : Nat) (d : Nat × Int) : DecimalNumeral :=
  if -4 ≤ d.2 ∧ d.2 ≤ p then .ofUnits (p - d.2).toNat d.1 none else .ofUnits p d.1 (some d.2)

namespace DecimalNumeral

theorem read?_generalNumeral (capital : Bool) (p : Nat) (d : Nat × Int) :
    read? (inCase capital (generalNumeral p d).text) = some (generalNumeral p d) := by
  unfold generalNumeral
  split
  · obtain ⟨hwhole, hfraction⟩ := isDigit_ofUnits (p - d.2).toNat d.1 none
    exact read?_text capital _ (digits_ne_nil _) hwhole hfraction
  · obtain ⟨hwhole, hfraction⟩ := isDigit_ofUnits p d.1 (some d.2)
    exact read?_text capital _ (digits_ne_nil _) hwhole hfraction

/-- Either form is worth the digits. -/
theorem value_generalNumeral (p : Nat) (d : Nat × Int) :
    (generalNumeral p d).value = worth p d := by
  unfold generalNumeral
  split
  · rw [value_ofUnits, worth, Option.getD_none, Int.toNat_of_nonneg (by omega)]
    congr 2
    ring
  · rw [value_ofUnits, worth, Option.getD_some]

theorem getLast?_fraction_generalNumeral (p : Nat) (d : Nat × Int) :
    (generalNumeral p d).fraction.getLast? ≠ some '0' := by
  unfold generalNumeral
  split <;> exact getLast?_dropTrailing _

end DecimalNumeral

/-- Without the alternative form, by the significant digits: the count of the places is no negative
number. -/
theorem generalForm_false {precision p : Nat} (hp : max precision 1 = p + 1) (num den : Nat) :
    generalForm false precision num den =
      if -4 ≤ (significant p num den).2 ∧ (significant p num den).2 ≤ p then
        stripFraction (fixed (p - (significant p num den).2).toNat num den)
      else stripFraction (places p (significant p num den).1) ++
        exponentPart 'e' 2 (significant p num den).2 := by
  unfold generalForm scientific
  dsimp only
  rw [hp, Nat.add_sub_cancel]
  generalize significant p num den = d
  have hless : d.2 < ((p + 1 : ℕ) : ℤ) ↔ d.2 ≤ p := by omega
  have hcount : (((p + 1 : ℕ) : ℤ) - 1 - d.2).toNat = (p - d.2).toNat := by omega
  simp only [hless, hcount, Bool.false_eq_true, if_false]

section

variable {precision p num den : Nat} (hd : 0 < den)
include hd

/-- Both forms print the significant digits that tell the exponent: rounded once more, at a place
after the point, the number has the same digits. -/
theorem generalForm_eq (hp : max precision 1 = p + 1) :
    generalForm false precision num den = (generalNumeral p (significant p num den)).text := by
  have hround (h : (significant p num den).2 ≤ p) :=
    divEven_mul_pow_eq num hd (Int.toNat_of_nonneg (sub_nonneg.mpr h))
  rw [generalForm_false hp]
  generalize significant p num den = d at hround ⊢
  unfold generalNumeral
  split
  · rename_i hplain
    rw [fixed, Nat.pow_eq, hround hplain.2, DecimalNumeral.text_ofUnits]
    exact (List.append_nil _).symm
  · rw [DecimalNumeral.text_ofUnits]
    rfl

/-- The numeral stands for the number. -/
theorem denotes_generalNumeral (p num : Nat) :
    (generalNumeral p (significant p num den)).Denotes (p + 1) (num / den) := by
  have hvalue := DecimalNumeral.value_generalNumeral p (significant p num den)
  have hlog := log_worth_significant num hd p
  refine ⟨?_, ?_, ?_, DecimalNumeral.getLast?_fraction_generalNumeral _ _⟩
  · rw [hvalue]
    exact isRounded_significant num hd p
  · rw [hvalue, hlog]
    have hless : (significant p num den).2 < ((p + 1 : ℕ) : ℤ) ↔ (significant p num den).2 ≤ p := by
      omega
    simp only [hless, generalNumeral]
    split <;> rfl
  · intro hexponent
    have hlt := significant_fst_lt hd p num
    generalize significant p num den = d at hexponent hlt ⊢
    unfold generalNumeral at hexponent ⊢
    split at hexponent
    · exact absurd rfl hexponent
    · rename_i hscientific
      rw [if_neg hscientific]
      show (digits 10 (d.1 / 10 ^ p)).length = 1
      rw [digits, Nat.toDigits_of_lt_base, List.length_singleton]
      exact Nat.div_lt_of_lt_mul (by rwa [← pow_succ])

end

/-- What is printed without the alternative form denotes the magnitude in so many significant
digits, one at the least. In the positional form as many places are printed as significant digits
follow the units, which is no negative number. -/
theorem generalForm_denotes (capital : Bool) (precision : Nat) (s : Scaled) :
    ∃ n, DecimalNumeral.read? (inCase capital (generalForm false precision s.num s.den)) = some n ∧
      n.Denotes (max precision 1) s.value ∧
      (n.exponent = none → ∃ count : ℕ,
        (count : ℤ) = (max precision 1 : ℕ) - 1 - Int.log 10 n.value ∧
        generalForm false precision s.num s.den = stripFraction (fixed count s.num s.den)) := by
  obtain ⟨p, hp⟩ : ∃ p, max precision 1 = p + 1 := ⟨max precision 1 - 1, by omega⟩
  have hlog := log_worth_significant s.num s.den_pos p
  refine ⟨generalNumeral p (significant p s.num s.den), ?_, ?_, fun hplain => ?_⟩
  · rw [generalForm_eq s.den_pos hp]
    exact DecimalNumeral.read?_generalNumeral capital p _
  · rw [hp, s.value_eq]
    exact denotes_generalNumeral s.den_pos p s.num
  · rw [DecimalNumeral.value_generalNumeral, hlog, generalForm_false hp, hp]
    have hplain : -4 ≤ (significant p s.num s.den).2 ∧ (significant p s.num s.den).2 ≤ p := by
      unfold generalNumeral at hplain
      split at hplain
      · assumption
      · cases hplain
    rw [if_pos hplain]
    exact ⟨(p - (significant p s.num s.den).2).toNat, by omega, rfl⟩

-- Rounded to six digits, a half below a million has one digit more and an exponent; to seven, it is
-- printed as it is.
example : generalForm false 6 1999999 2 = "1e+06".toList ∧
    generalForm false 7 1999999 2 = "999999.5".toList := by
  decide +kernel

end StackScript.Format
