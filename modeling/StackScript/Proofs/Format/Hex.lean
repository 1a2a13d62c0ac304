import StackScript.Proofs.Format.Integer
import StackScript.Proofs.Number.Rounding
import StackScript.Proofs.Numeral.Leading

/-!
# Numbers in base sixteen

The form with an exponent of two, read back as an exact number.

* `HexNumeral` is what such a text tells: digits before and after the point and an exponent.
  `read?` takes a text apart, and `value` is what it is worth.
* `Denotes`: a numeral is worth a number exactly, or rounded to its last place.
* `ofUnits` writes so many units of a place; more places add zeros (`ofUnits_mul_pow`).
* `read?_hexForm`: what is printed denotes the magnitude, in either case of the letters.
-/

namespace StackScript.Format

open Number Numeral

/-- The parts of a number in base sixteen with an exponent of two. -/
structure HexNumeral where
  lead : List Char
  fraction : List Char
  exponent : Int
  deriving DecidableEq, Repr

namespace HexNumeral

/-- What a one at the last place is worth. -/
def unit (n : HexNumeral) : ℚ := 2 ^ n.exponent / 16 ^ n.fraction.length

/-- What the number is worth. -/
def value (n : HexNumeral) : ℚ :=
  (ofDigits 16 n.lead + ofDigits 16 n.fraction / 16 ^ n.fraction.length) * 2 ^ n.exponent

/-- What follows a point that may come first. -/
def skipPoint : List Char → List Char
  | '.' :: cs => cs
  | cs => cs

/-- Reads a whole text: digits, a point with digits after it, and an exponent in base ten after its
mark. The point may be left out with the digits after it. -/
def read? (cs : List Char) : Option HexNumeral :=
  let lead := cs.takeWhile (isDigit 16)
  let tail := skipPoint (cs.dropWhile (isDigit 16))
  match tail.dropWhile (isDigit 16) with
  | [] => none
  | mark :: es =>
    if lead ≠ [] ∧ (mark = 'p' ∨ mark = 'P') then
      let (negative, ds) := splitSign es
      (natOf? 10 ds).map fun e => ⟨lead, tail.takeWhile (isDigit 16), Exact.signed negative e⟩
    else none

/-- A numeral stands for a number: one digit before the point, the exponent of the greatest power of
two that is not above the number, and the exact number without a zero at the end, or so many places
with the number rounded at the last of them, a tie to the even multiple. -/
structure Denotes (n : HexNumeral) (precision : Option Nat) (m : ℚ) : Prop where
  lead : n.lead.length = 1
  zero : m = 0 → n.exponent = 0
  exponent : m ≠ 0 → 2 ^ n.exponent ≤ m ∧ m < 2 ^ (n.exponent + 1)
  exact : precision = none → n.value = m ∧ n.fraction.getLast? ≠ some '0'
  rounded : ∀ p, precision = some p → n.fraction.length = p ∧
    ∃ k : ℕ, n.value = k * n.unit ∧ IsNearestEven (m / n.unit) k

/-! ## Values -/

/-- The number is all its digits, counted in units of the last place. -/
theorem value_eq (n : HexNumeral) : n.value = ofDigits 16 (n.lead ++ n.fraction) * n.unit := by
  rw [ofDigits_append, value, unit]
  push_cast
  field_simp

/-- Zeros at the end of the fraction are worth nothing. -/
theorem value_append_zeros (lead fraction : List Char) (e : Int) (k : Nat) :
    value ⟨lead, fraction ++ List.replicate k '0', e⟩ = value ⟨lead, fraction, e⟩ := by
  simp only [value, ofDigits_append, ofDigits_zeros, List.length_append, List.length_replicate]
  push_cast
  field_simp
  ring

end HexNumeral

/-! ## Places after the point -/

/-- So many places after the point. -/
def hexFraction (p n : Nat) : List Char := if p = 0 then [] else padZeros p (digits 16 n)

section Places

variable {p n : Nat}

/-- The places are written with small letters. -/
theorem mem_alphabet_of_mem_hexFraction {c : Char} (hc : c ∈ hexFraction p n) :
    c ∈ alphabet 'x' := by
  unfold hexFraction at hc
  split at hc
  · simp at hc
  · rcases List.mem_append.mp hc with hc | hc
    · rw [(List.mem_replicate.mp hc).2]
      exact zero_mem_alphabet 'x'
    · have hsmall : c ∈ lettered 'x' n := hc
      exact mem_alphabet_of_mem_lettered hsmall

theorem length_hexFraction (h : n < 16 ^ p) : (hexFraction p n).length = p :=
  length_placeDigits (by decide) h

theorem ofDigits_hexFraction (h : n < 16 ^ p) : ofDigits 16 (hexFraction p n) = n :=
  ofDigits_placeDigits (by decide) (by decide) h

end Places

/-! ## Zeros at the end -/

/-- What is dropped at the end are zeros. -/
theorem exists_dropTrailing_append (cs : List Char) :
    ∃ k, dropTrailing (· == '0') cs ++ List.replicate k '0' = cs := by
  refine ⟨(cs.reverse.takeWhile (· == '0')).length, ?_⟩
  have hzeros : cs.reverse.takeWhile (· == '0') =
      List.replicate (cs.reverse.takeWhile (· == '0')).length '0' :=
    List.eq_replicate_iff.mpr ⟨rfl, fun c hc => by simpa using List.mem_takeWhile_imp hc⟩
  have happend := congrArg List.reverse
    (List.takeWhile_append_dropWhile (p := (· == '0')) (l := cs.reverse))
  rwa [List.reverse_append, List.reverse_reverse, hzeros, List.reverse_replicate] at happend

theorem mem_of_mem_dropTrailing {f : Char → Bool} {cs : List Char} {c : Char}
    (hc : c ∈ dropTrailing f cs) : c ∈ cs :=
  List.mem_reverse.mp ((List.dropWhile_suffix f).subset (List.mem_reverse.mp hc))

theorem getLast?_dropTrailing (cs : List Char) :
    (dropTrailing (· == '0') cs).getLast? ≠ some '0' := by
  unfold dropTrailing
  rw [List.getLast?_reverse]
  intro h
  exact absurd (Leading.head?_dropWhile (Option.mem_def.mpr h)) (by decide)

theorem dropTrailing_append_zeros (cs : List Char) (k : Nat) :
    dropTrailing (· == '0') (cs ++ List.replicate k '0') = dropTrailing (· == '0') cs := by
  unfold dropTrailing
  rw [List.reverse_append, List.reverse_replicate, List.dropWhile_append_of_pos]
  exact fun c hc => by simpa using (List.mem_replicate.mp hc).2

/-! ## What is printed -/

/-- So many units of a place after the point, with all the places up to it. -/
def HexNumeral.ofUnits (p n : Nat) (e : Int) : HexNumeral :=
  { lead := digits 10 (n / 16 ^ p)
    fraction := hexFraction p (n % 16 ^ p)
    exponent := e }

/-- A numeral without zeros at the end of its fraction. -/
def HexNumeral.trim (n : HexNumeral) : HexNumeral :=
  { n with fraction := dropTrailing (· == '0') n.fraction }

/-- A numeral as it is printed. The alternative form has a point in any case. -/
def HexNumeral.text (alt : Bool) (n : HexNumeral) : List Char :=
  n.lead ++ (if n.fraction.isEmpty && !alt then [] else ['.']) ++ n.fraction ++
    exponentPart 'p' 1 n.exponent

/-- The exponent of the first bit of a magnitude. -/
def hexExponent (s : Scaled) : Int := if s.mant = 0 then 0 else s.exp + s.mant.log2

/-- What a magnitude is printed as. -/
def hexNumeral (precision : Option Nat) (s : Scaled) : HexNumeral :=
  match precision with
  | some p => .ofUnits p (hexUnits p s) (hexExponent s)
  | none => (HexNumeral.ofUnits (hexPlaces s) (hexUnits (hexPlaces s) s) (hexExponent s)).trim

theorem text_hexNumeral (alt : Bool) (precision : Option Nat) (s : Scaled) :
    (hexNumeral precision s).text alt = hexForm alt precision s := by
  cases precision <;> rfl

namespace HexNumeral

section Units

variable {p n : Nat} (h : n / 16 ^ p < 10) (e : Int)
include h

/-- One digit is written alike in both bases. -/
theorem lead_ofUnits : (ofUnits p n e).lead = digits 16 (n / 16 ^ p) := by
  show digits 10 _ = _
  rw [digits, digits, Nat.toDigits_of_lt_base h, Nat.toDigits_of_lt_base (by omega)]

theorem length_lead_ofUnits : (ofUnits p n e).lead.length = 1 := by
  show (digits 10 _).length = 1
  rw [digits, Nat.toDigits_of_lt_base h, List.length_singleton]

omit h in
theorem length_fraction_ofUnits : (ofUnits p n e).fraction.length = p :=
  length_hexFraction (Nat.mod_lt _ (by positivity))

omit h in
theorem unit_ofUnits : (ofUnits p n e).unit = 2 ^ e / 16 ^ p := by
  rw [unit, length_fraction_ofUnits]
  rfl

theorem value_ofUnits : (ofUnits p n e).value = n * (2 ^ e / 16 ^ p) := by
  have hlt : n % 16 ^ p < 16 ^ p := Nat.mod_lt _ (by positivity)
  rw [value_eq, unit_ofUnits, lead_ofUnits h]
  show (ofDigits 16 (_ ++ hexFraction p _) : ℚ) * _ = _
  rw [ofDigits_append, ofDigits_digits (by decide) (by decide), length_hexFraction hlt,
    ofDigits_hexFraction hlt, Nat.div_add_mod']

/-- All characters before the exponent are digits. -/
theorem isDigit_ofUnits : (∀ c ∈ (ofUnits p n e).lead, isDigit 16 c = true) ∧
    ∀ c ∈ (ofUnits p n e).fraction, isDigit 16 c = true := by
  refine ⟨fun c hc => ?_, fun c hc =>
    isDigit_of_mem_alphabet c (mem_alphabet_of_mem_hexFraction hc)⟩
  rw [lead_ofUnits h] at hc
  exact isDigit_of_mem_digits (by decide) (by decide) hc

end Units

/-- The same number with more places has zeros in them. -/
theorem ofUnits_mul_pow (p n k : Nat) (e : Int) :
    ofUnits (p + k) (n * 16 ^ k) e =
      { ofUnits p n e with fraction := (ofUnits p n e).fraction ++ List.replicate k '0' } := by
  have hk : 0 < 16 ^ k := by positivity
  have hlt : n % 16 ^ p < 16 ^ p := Nat.mod_lt _ (by positivity)
  have hlt' : n % 16 ^ p * 16 ^ k < 16 ^ (p + k) := by
    rw [pow_add]
    exact Nat.mul_lt_mul_of_pos_right hlt hk
  have hfraction : hexFraction (p + k) (n % 16 ^ p * 16 ^ k) =
      hexFraction p (n % 16 ^ p) ++ List.replicate k '0' := by
    refine eq_of_ofDigits_eq isDigit_of_mem_alphabet digitValue_injOn_alphabet
      (fun c hc => mem_alphabet_of_mem_hexFraction hc) (fun c hc => ?_) ?_ ?_
    · rcases List.mem_append.mp hc with hc | hc
      · exact mem_alphabet_of_mem_hexFraction hc
      · rw [(List.mem_replicate.mp hc).2]
        exact zero_mem_alphabet 'x'
    · rw [List.length_append, length_hexFraction hlt', length_hexFraction hlt,
        List.length_replicate]
    · show ofDigits 16 _ = ofDigits 16 _
      rw [ofDigits_append, ofDigits_zeros, ofDigits_hexFraction hlt', ofDigits_hexFraction hlt,
        List.length_replicate, Nat.add_zero]
  simp only [ofUnits, mk.injEq, and_true]
  rw [pow_add, Nat.mul_div_mul_right _ _ hk, Nat.mul_mod_mul_right]
  exact ⟨rfl, hfraction⟩

/-- What is trimmed is worth nothing. -/
theorem value_trim (n : HexNumeral) : n.trim.value = n.value := by
  obtain ⟨k, hk⟩ := exists_dropTrailing_append n.fraction
  rw [trim, ← value_append_zeros _ _ _ k, hk]

/-- Zeros at the end do not matter to what is trimmed. -/
theorem trim_append_zeros (n : HexNumeral) (k : Nat) :
    trim { n with fraction := n.fraction ++ List.replicate k '0' } = n.trim := by
  simp only [trim, dropTrailing_append_zeros]

end HexNumeral

section Magnitude

variable (precision : Option Nat) (p : Nat) (s : Scaled)

/-- The first bit stands before the point, so that a carry makes it two at the most. -/
theorem hexUnits_le : hexUnits p s ≤ 2 * 16 ^ p := by
  refine divEven_le (Nat.two_pow_pos _) ?_
  have hlt : s.mant < 2 ^ (s.mant.log2 + 1) := Nat.lt_log2_self
  calc s.mant * 16 ^ p ≤ 2 ^ (s.mant.log2 + 1) * 16 ^ p := Nat.mul_le_mul_right _ hlt.le
    _ = 2 * 16 ^ p * 2 ^ s.mant.log2 := by ring

theorem hexUnits_div_lt : hexUnits p s / 16 ^ p < 10 := by
  have : hexUnits p s / 16 ^ p ≤ 2 := Nat.div_le_of_le_mul (by
    rw [Nat.mul_comm]
    exact hexUnits_le p s)
  omega

/-- The exact quotient that is rounded: the magnitude in units of a place. -/
theorem value_div_unit :
    s.value / (2 ^ hexExponent s / 16 ^ p) =
      ((s.mant * 16 ^ p : ℕ) : ℚ) / (2 ^ s.mant.log2 : ℕ) := by
  unfold hexExponent
  split
  · rename_i h
    simp [Scaled.value, h]
  · rw [Scaled.value, zpow_add₀ (by norm_num), zpow_natCast]
    push_cast
    field_simp

/-- So many places hold the whole magnitude. -/
theorem hexUnits_hexPlaces :
    hexUnits (hexPlaces s) s * 2 ^ s.mant.log2 = s.mant * 16 ^ hexPlaces s := by
  obtain ⟨k, hk⟩ : ∃ k, 16 ^ hexPlaces s = 2 ^ k * 2 ^ s.mant.log2 := by
    refine ⟨4 * hexPlaces s - s.mant.log2, ?_⟩
    rw [← pow_add, show (16 : ℕ) = 2 ^ 4 from rfl, ← pow_mul]
    congr 1
    unfold hexPlaces
    omega
  show divEven (s.mant * 16 ^ hexPlaces s) (2 ^ s.mant.log2) * 2 ^ s.mant.log2 = _
  rw [hk, ← Nat.mul_assoc, divEven_mul _ (Nat.two_pow_pos _)]

/-- The exponent is the one of the first bit. -/
theorem zpow_hexExponent_le (h : s.value ≠ 0) :
    (2 : ℚ) ^ hexExponent s ≤ s.value ∧ s.value < 2 ^ (hexExponent s + 1) := by
  have hm := Scaled.value_eq_zero_iff.not.mp h
  rw [hexExponent, if_neg hm]
  exact Scaled.zpow_log2_le hm

theorem denotes_hexNumeral : (hexNumeral precision s).Denotes precision s.value := by
  have hlt (p : ℕ) := hexUnits_div_lt p s
  have hzero (h : s.value = 0) : hexExponent s = 0 := if_pos (Scaled.value_eq_zero_iff.mp h)
  cases precision with
  | some p =>
    refine ⟨HexNumeral.length_lead_ofUnits (hlt p) _, hzero, zpow_hexExponent_le s, nofun, ?_⟩
    rintro _ ⟨⟩
    refine ⟨HexNumeral.length_fraction_ofUnits _, hexUnits p s, ?_, ?_⟩
    · rw [hexNumeral, HexNumeral.value_ofUnits (hlt p), HexNumeral.unit_ofUnits]
    · rw [hexNumeral, HexNumeral.unit_ofUnits, value_div_unit]
      exact isNearestEven_divEven (Nat.two_pow_pos _)
  | none =>
    refine ⟨HexNumeral.length_lead_ofUnits (hlt (hexPlaces s)) (hexExponent s), hzero,
      zpow_hexExponent_le s, ?_, nofun⟩
    refine fun _ => ⟨?_, getLast?_dropTrailing _⟩
    have hpow : (2 ^ s.mant.log2 : ℚ) ≠ 0 := by positivity
    have hunits : (hexUnits (hexPlaces s) s : ℚ) =
        ((s.mant * 16 ^ hexPlaces s : ℕ) : ℚ) / (2 ^ s.mant.log2 : ℕ) := by
      rw [← hexUnits_hexPlaces]
      push_cast
      field_simp
    rw [hexNumeral, HexNumeral.value_trim, HexNumeral.value_ofUnits (hlt _), hunits,
      ← value_div_unit, div_mul_cancel₀ _ (by positivity)]

end Magnitude

/-! ## Reading it back -/

section Reading

variable (capital : Bool) {cs : List Char}

theorem inCase_append (cs ds : List Char) :
    inCase capital (cs ++ ds) = inCase capital cs ++ inCase capital ds := by
  unfold inCase
  split
  · exact List.map_append
  · rfl

theorem length_inCase (cs : List Char) : (inCase capital cs).length = cs.length := by
  unfold inCase
  split
  · exact List.length_map _
  · rfl

/-- What is no letter stays as it is. -/
theorem inCase_eq_self (h : ∀ c ∈ cs, c.toNat < 65) : inCase capital cs = cs := by
  unfold inCase
  split
  · exact (List.map_congr_left fun c hc => (toUpper_eq_iff (h c hc)).mpr rfl).trans (List.map_id cs)
  · rfl

theorem map_digitValue_inCase (h : ∀ c ∈ cs, isDigit 16 c = true) :
    (inCase capital cs).map digitValue = cs.map digitValue := by
  unfold inCase
  split
  · rw [List.map_map]
    exact List.map_congr_left fun c hc => digitValue_toUpper (h c hc)
  · rfl

theorem isDigit_of_mem_inCase (h : ∀ c ∈ cs, isDigit 16 c = true) :
    ∀ c ∈ inCase capital cs, isDigit 16 c = true := by
  unfold inCase
  split
  · intro c hc
    obtain ⟨d, hd, rfl⟩ := List.mem_map.mp hc
    rw [isDigit, digitValue_toUpper (h d hd)]
    exact h d hd
  · exact h

theorem inCase_exponentPart (mark : Char) (least : Nat) (e : Int) :
    inCase capital (exponentPart mark least e) =
      exponentPart (if capital then mark.toUpper else mark) least e := by
  have htail : ∀ c ∈ (if e < 0 then '-' else '+') :: padZeros least (digits 10 e.natAbs),
      c.toNat < 65 := by
    intro c hc
    rcases List.mem_cons.mp hc with rfl | hc
    · split <;> decide
    · have := toNat_of_isDigit_ten (isDigit_of_mem_padZeros (by decide) (by decide) hc)
      omega
  rw [exponentPart, ← List.singleton_append, inCase_append, inCase_eq_self capital htail]
  cases capital <;> rfl

theorem signed_natAbs (e : Int) : Exact.signed (decide (e < 0)) e.natAbs = e := by
  by_cases he : e < 0
  · rw [Exact.signed, if_pos (decide_eq_true he)]
    omega
  · rw [Exact.signed, if_neg (by simpa using he)]
    omega

/-- The exponent is read back. -/
theorem natOf?_exponent (e : Int) :
    ∃ negative ds, splitSign ((if e < 0 then '-' else '+') :: padZeros 1 (digits 10 e.natAbs)) =
        (negative, ds) ∧
      (natOf? 10 ds).map (Exact.signed negative) = some e := by
  refine ⟨decide (e < 0), padZeros 1 (digits 10 e.natAbs), ?_,
    by rw [natOf?_padZeros, Option.map_some, signed_natAbs]⟩
  by_cases he : e < 0
  · rw [if_pos he, decide_eq_true he]
    rfl
  · rw [if_neg he, decide_eq_false he]
    rfl

/-- A text of such parts is read as these parts. -/
theorem HexNumeral.read?_append {lead point fraction es : List Char} {mark : Char} {e : Int}
    (hne : lead ≠ []) (hlead : ∀ c ∈ lead, isDigit 16 c = true)
    (hpoint : point = ['.'] ∨ point = [] ∧ fraction = [])
    (hfraction : ∀ c ∈ fraction, isDigit 16 c = true) (hmark : mark = 'p' ∨ mark = 'P')
    (hes : ∃ negative ds, splitSign es = (negative, ds) ∧
      (natOf? 10 ds).map (Exact.signed negative) = some e) :
    read? (lead ++ (point ++ (fraction ++ mark :: es))) = some ⟨lead, fraction, e⟩ := by
  obtain ⟨negative, ds, hsign, hexponent⟩ := hes
  have hdigit : ∀ c ∈ (mark :: es).head?, isDigit 16 c = false := by
    intro c hc
    obtain rfl : mark = c := Option.some.inj hc
    rcases hmark with rfl | rfl <;> decide
  have htake := Leading.takeWhile_append hfraction hdigit
  have hdrop := Leading.dropWhile_append hfraction hdigit
  set tail := fraction ++ mark :: es with htail
  have hskip : skipPoint (point ++ tail) = tail := by
    rcases hpoint with rfl | ⟨rfl, rfl⟩
    · rfl
    · rcases hmark with rfl | rfl <;> rfl
  have hhead : ∀ c ∈ (point ++ tail).head?, isDigit 16 c = false := by
    rcases hpoint with rfl | ⟨rfl, rfl⟩
    · intro c hc
      obtain rfl : '.' = c := Option.some.inj hc
      decide
    · exact hdigit
  obtain ⟨n, hn, rfl⟩ := Option.map_eq_some_iff.mp hexponent
  rw [read?, Leading.takeWhile_append hlead hhead, Leading.dropWhile_append hlead hhead]
  simp only [hskip, htake, hdrop, hsign, hn, Option.map_some]
  exact if_pos ⟨hne, hmark⟩

/-- A numeral is read back from what is printed. -/
theorem HexNumeral.read?_text (alt : Bool) (n : HexNumeral) (hne : n.lead ≠ [])
    (hlead : ∀ c ∈ n.lead, isDigit 16 c = true)
    (hfraction : ∀ c ∈ n.fraction, isDigit 16 c = true) :
    read? (inCase capital (n.text alt)) =
      some ⟨inCase capital n.lead, inCase capital n.fraction, n.exponent⟩ := by
  set point : List Char := if n.fraction.isEmpty && !alt then [] else ['.'] with hdef
  have hpoint : point = ['.'] ∨ point = [] ∧ n.fraction = [] := by
    by_cases hnone : (n.fraction.isEmpty && !alt) = true
    · exact .inr ⟨if_pos hnone, List.isEmpty_iff.mp (Bool.and_eq_true_iff.mp hnone).1⟩
    · exact .inl (if_neg hnone)
  have hcase : inCase capital point = point := by
    refine inCase_eq_self capital fun c hc => ?_
    rcases hpoint with h | ⟨h, -⟩
    · rw [h, List.mem_singleton] at hc
      rw [hc]
      decide
    · simp [h] at hc
  have hempty : n.fraction = [] → inCase capital n.fraction = [] := fun h => by
    rw [h]
    cases capital <;> rfl
  rw [text, ← hdef, inCase_append, inCase_append, inCase_append, hcase, inCase_exponentPart,
    exponentPart, List.append_assoc, List.append_assoc]
  refine read?_append ?_ (isDigit_of_mem_inCase capital hlead)
    (hpoint.imp_right (.imp_right hempty)) (isDigit_of_mem_inCase capital hfraction) ?_
    (natOf?_exponent n.exponent)
  · rw [← List.length_pos_iff, length_inCase]
    exact List.length_pos_iff.mpr hne
  · cases capital
    · exact .inl rfl
    · exact .inr rfl

/-- Capitals change nothing of what a numeral stands for. -/
theorem HexNumeral.Denotes.inCase {n : HexNumeral} {precision : Option Nat} {m : ℚ}
    (h : n.Denotes precision m) (hlead : ∀ c ∈ n.lead, isDigit 16 c = true)
    (hfraction : ∀ c ∈ n.fraction, isDigit 16 c = true) :
    Denotes ⟨Format.inCase capital n.lead, Format.inCase capital n.fraction, n.exponent⟩
      precision m := by
  have hlength := length_inCase capital n.fraction
  have hvalue : value ⟨Format.inCase capital n.lead, Format.inCase capital n.fraction,
      n.exponent⟩ = n.value := by
    rw [value, value]
    dsimp only
    rw [hlength, ofDigits_congr (map_digitValue_inCase capital hlead),
      ofDigits_congr (map_digitValue_inCase capital hfraction)]
  have hunit : unit ⟨Format.inCase capital n.lead, Format.inCase capital n.fraction,
      n.exponent⟩ = n.unit := by
    rw [unit, unit, hlength]
  refine ⟨(length_inCase capital n.lead).trans h.lead, h.zero, h.exponent, fun hp => ?_,
    fun p hp => ?_⟩
  · refine ⟨hvalue.trans (h.exact hp).1, fun hzero => (h.exact hp).2 ?_⟩
    unfold Format.inCase at hzero
    split at hzero
    · rw [List.getLast?_map, Option.map_eq_some_iff] at hzero
      obtain ⟨c, hc, hupper⟩ := hzero
      rwa [(toUpper_eq_iff (by decide)).mp hupper] at hc
    · exact hzero
  · rw [hvalue, hunit, hlength]
    exact h.rounded p hp

/-- What is printed denotes the magnitude, in either case of the letters. -/
theorem read?_hexForm (alt : Bool) (precision : Option Nat) (s : Scaled) :
    ∃ n, HexNumeral.read? (inCase capital (hexForm alt precision s)) = some n ∧
      n.Denotes precision s.value := by
  have hdenotes := denotes_hexNumeral precision s
  obtain ⟨hlead, hfraction⟩ : (∀ c ∈ (hexNumeral precision s).lead, isDigit 16 c = true) ∧
      ∀ c ∈ (hexNumeral precision s).fraction, isDigit 16 c = true := by
    cases precision with
    | some p => exact HexNumeral.isDigit_ofUnits (hexUnits_div_lt p s) _
    | none =>
      have h := HexNumeral.isDigit_ofUnits (hexUnits_div_lt (hexPlaces s) s) (hexExponent s)
      exact ⟨h.1, fun c hc => h.2 c (mem_of_mem_dropTrailing hc)⟩
  have hne : (hexNumeral precision s).lead ≠ [] :=
    List.ne_nil_of_length_pos (by rw [hdenotes.lead]; decide)
  rw [← text_hexNumeral]
  exact ⟨_, HexNumeral.read?_text capital alt _ hne hlead hfraction,
    hdenotes.inCase capital hlead hfraction⟩

end Reading

end StackScript.Format
