import StackScript.Proofs.Number.Double
import StackScript.Proofs.Number.Nearest
import StackScript.Single.Reader

/-!
# Numerals rounded twice

A numeral is rounded to double precision, and the double to single precision.

* `Layout.single` and `Layout.double` are the two formats; `Single.isNearest_ratioBits`: a ratio
  is rounded to the nearest number.
* `Double` is a number of double precision, `Double.narrow` what it is in single precision. It
  `Narrows` to nothing else (`Double.Narrows.unique`).
* `Decimal.isNearest_toDouble`: a numeral that is too great or too small to be made a ratio is
  infinite or zero as a double, any other one is rounded. The number read is this double narrowed
  (`Single.ofDecimalTwice_eq`).
-/

namespace StackScript

open Number

namespace Number

/-! ## The two formats -/

/-- Single precision. -/
def Layout.single : Layout := ⟨23, -149, Single.infinityBits, by decide⟩

/-- Double precision. -/
def Layout.double : Layout := ⟨52, -1074, Double.infinityBits, by decide⟩

theorem Layout.scaledOf_double (b : ℕ) : double.scaledOf b = Double.scaledOf b := rfl

theorem Layout.value_infinity_single : single.value Single.infinityBits = 2 ^ (128 : ℤ) :=
  single.value_mul_unit 254

theorem Layout.value_infinity_double : double.value Double.infinityBits = 2 ^ (1024 : ℤ) :=
  double.value_mul_unit 2046

end Number

/-! ## Single precision -/

namespace Single

open Layout

/-- The bits of the number nearest to a ratio. -/
def ratioBits (num den : ℕ) : ℕ := if num = 0 then 0 else pack (nearest 24 (-149) num den)

variable {num den : ℕ}

theorem isNearest_ratioBits (num : ℕ) (hd : 0 < den) :
    single.IsNearest (num / den) (ratioBits num den) := by
  unfold ratioBits
  split
  · rename_i h
    rw [h, Nat.cast_zero, zero_div]
    exact isNearest_zero_zero
  · rename_i h
    exact single.isNearest_pack (Nat.pos_of_ne_zero h) hd

theorem ratioBits_le (num : ℕ) (hd : 0 < den) : ratioBits num den ≤ infinityBits :=
  (isNearest_ratioBits num hd).le

theorem ofRatio_eq (negative : Bool) (num den : ℕ) :
    ofRatio negative num den = ofParts negative (ratioBits num den) := rfl

/-- A ratio is rounded alike in whatever numbers it is written. -/
theorem ofRatio_congr (negative : Bool) {num' den' : ℕ} (hd : 0 < den) (hd' : 0 < den')
    (h : (num : ℚ) / den = num' / den') :
    ofRatio negative num den = ofRatio negative num' den' := by
  have hself := isNearest_ratioBits num hd
  rw [h] at hself
  rw [ofRatio_eq, ofRatio_eq, hself.unique (isNearest_ratioBits num' hd')]

/-- From the value of infinity on, a ratio is infinite. -/
theorem ofRatio_of_le (negative : Bool) (hd : 0 < den)
    (h : single.value infinityBits ≤ num / den) : ofRatio negative num den = infinity negative := by
  rw [ofRatio_eq, (isNearest_ratioBits num hd).unique (isNearest_infinity h)]
  rfl

variable {negative : Bool} {magnitude : ℕ}

theorem toNat_ofParts (h : magnitude ≤ infinityBits) :
    (ofParts negative magnitude).bits.toNat = (if negative then signBit else 0) + magnitude := by
  refine UInt32.toNat_ofNat_of_lt' ?_
  have hwords : UInt32.size = 2 ^ 32 := rfl
  unfold signBit infinityBits at *
  split <;> omega

theorem isNegative_ofParts (h : magnitude ≤ infinityBits) :
    (ofParts negative magnitude).isNegative = negative := by
  have hlt : magnitude < signBit := h.trans_lt (by decide)
  rw [isNegative, toNat_ofParts h]
  cases negative with
  | true => exact decide_eq_true (Nat.le_add_right _ _)
  | false =>
    rw [if_neg Bool.false_ne_true, Nat.zero_add]
    exact decide_eq_false (Nat.not_le.mpr hlt)

theorem magnitudeBits_ofParts (h : magnitude ≤ infinityBits) :
    (ofParts negative magnitude).magnitudeBits = magnitude := by
  rw [magnitudeBits, toNat_ofParts h]
  unfold signBit infinityBits at *
  split <;> omega

/-- A number is its sign and its magnitude. -/
theorem ofParts_eq (x : Single) : ofParts x.isNegative x.magnitudeBits = x := by
  have hlt : x.bits.toNat < 2 ^ 32 := x.bits.toNat_lt
  have hparts : (if x.isNegative then signBit else 0) + x.magnitudeBits = x.bits.toNat := by
    rw [isNegative, magnitudeBits]
    by_cases h : signBit ≤ x.bits.toNat
    · rw [if_pos (decide_eq_true h)]
      unfold signBit at *
      omega
    · rw [if_neg (by rwa [decide_eq_true_iff])]
      unfold signBit at *
      omega
  rw [ofParts, hparts, UInt32.ofNat_toNat]

end Single

/-! ## Double precision -/

namespace Number

/-- A number of double precision, finite or not: its sign and the bits of its magnitude. -/
structure Double where
  negative : Bool
  magnitude : ℕ
  le : magnitude ≤ Double.infinityBits

namespace Double

open Layout

variable {d d' : Double} {negative : Bool} {x : ℚ} {y z : Single}

/-- The double nearest to a magnitude with a sign. -/
structure IsNearest (d : Double) (negative : Bool) (x : ℚ) : Prop where
  sign : d.negative = negative
  magnitude : Layout.double.IsNearest x d.magnitude

theorem IsNearest.unique (h : d.IsNearest negative x) (h' : d'.IsNearest negative x) : d = d' := by
  obtain ⟨s, m, hm⟩ := d
  obtain ⟨s', m', hm'⟩ := d'
  obtain rfl : s = s' := h.sign.trans h'.sign.symm
  obtain rfl : m = m' := h.magnitude.unique h'.magnitude
  rfl

/-- A number of single precision that a double is narrowed to: the nearest one, and an infinity for
an infinity. -/
structure Narrows (d : Double) (y : Single) : Prop where
  sign : y.isNegative = d.negative
  nearest : d.magnitude < infinityBits →
    single.IsNearest (scaledOf d.magnitude).value y.magnitudeBits
  infinite : d.magnitude = infinityBits → y.magnitudeBits = Single.infinityBits

/-- A double is narrowed to one number. -/
theorem Narrows.unique (h : d.Narrows y) (h' : d.Narrows z) : y = z := by
  have hbits : y.magnitudeBits = z.magnitudeBits := by
    rcases Nat.eq_or_lt_of_le d.le with hinf | hlt
    · rw [h.infinite hinf, h'.infinite hinf]
    · exact (h.nearest hlt).unique (h'.nearest hlt)
  rw [← y.ofParts_eq, ← z.ofParts_eq, h.sign, h'.sign, hbits]

/-- A double in single precision. -/
def narrow (d : Double) : Single :=
  if d.magnitude = infinityBits then Single.infinity d.negative
  else Single.ofRatio d.negative (scaledOf d.magnitude).num (scaledOf d.magnitude).den

theorem narrows_narrow (d : Double) : d.Narrows d.narrow := by
  unfold narrow
  split
  · rename_i h
    exact ⟨Single.isNegative_ofParts le_rfl, fun hlt => absurd h hlt.ne,
      fun _ => Single.magnitudeBits_ofParts le_rfl⟩
  · rename_i h
    have hden := (scaledOf d.magnitude).den_pos
    have hle := Single.ratioBits_le (scaledOf d.magnitude).num hden
    rw [Single.ofRatio_eq]
    refine ⟨Single.isNegative_ofParts hle, fun _ => ?_, fun hinf => absurd hinf h⟩
    rw [Single.magnitudeBits_ofParts hle, Scaled.value_eq]
    exact Single.isNearest_ratioBits _ hden

end Double

end Number

/-! ## Numerals -/

namespace Decimal

open Layout

variable {d : Decimal} {num den : ℕ}

/-- What a numeral is worth. -/
def value (d : Decimal) : ℚ := d.coefficient * 10 ^ d.exponent

theorem two_pow_le_ten_pow (n : ℕ) : (2 : ℚ) ^ (3 * n) ≤ 10 ^ n := by
  rw [pow_mul]
  exact pow_le_pow_left₀ (by norm_num) (by norm_num) n

/-- A numeral that is not made a ratio passes every double. -/
theorem le_value_of_ratio? (h : d.ratio? = none) :
    double.value Double.infinityBits ≤ d.value := by
  unfold ratio? at h
  split at h
  · cases h
  rename_i hcoefficient
  split at h
  · rename_i hexponent
    obtain ⟨n, hn⟩ := Int.eq_ofNat_of_zero_le (show 0 ≤ d.exponent by omega)
    have hone : (1 : ℚ) ≤ d.coefficient := by
      exact_mod_cast Nat.one_le_iff_ne_zero.mpr hcoefficient
    rw [value_infinity_double, value, hn, zpow_natCast]
    calc (2 : ℚ) ^ ((1024 : ℕ) : ℤ) = 2 ^ 1024 := zpow_natCast 2 1024
      _ ≤ 2 ^ (3 * n) := pow_le_pow_right₀ (by norm_num) (by omega)
      _ ≤ 10 ^ n := two_pow_le_ten_pow n
      _ ≤ d.coefficient * 10 ^ n := le_mul_of_one_le_left (by positivity) hone
  · split at h <;> cases h

/-- A numeral of many places after the point is below half of the least double. -/
theorem value_lt_of_places (h : d.coefficient.log2 + 1 + 1100 < 3 * -d.exponent) :
    2 * d.value < double.value 1 := by
  obtain ⟨n, hn⟩ := Int.eq_ofNat_of_zero_le (show 0 ≤ -d.exponent by omega)
  have hlt : (d.coefficient : ℚ) < 2 ^ (d.coefficient.log2 + 1) := by
    exact_mod_cast (Nat.lt_log2_self : d.coefficient < 2 ^ (d.coefficient.log2 + 1))
  have hone : double.value 1 = 1 / 2 ^ 1074 := by
    rw [double.value_below (by decide), Nat.cast_one, one_mul, one_div]
    exact (zpow_neg 2 (1074 : ℕ)).trans (congrArg _ (zpow_natCast 2 1074))
  rw [hone, value, show d.exponent = -(n : ℤ) by omega, zpow_neg, zpow_natCast,
    lt_div_iff₀ (by positivity)]
  have hpow : (0 : ℚ) < 10 ^ n := by positivity
  rw [mul_assoc, mul_right_comm, ← div_eq_mul_inv, ← mul_div_assoc, div_lt_one hpow]
  calc (2 : ℚ) * (d.coefficient * 2 ^ 1074)
      < 2 * (2 ^ (d.coefficient.log2 + 1) * 2 ^ 1074) := by gcongr
    _ = 2 ^ (d.coefficient.log2 + 1 + 1075) := by
        rw [← pow_add, ← pow_succ']
    _ ≤ 2 ^ (3 * n) := pow_le_pow_right₀ (by norm_num) (by omega)
    _ ≤ 10 ^ n := two_pow_le_ten_pow n

/-- The ratio that a numeral is made is its own, or zero where it is below half of the least
double. -/
theorem value_of_ratio? (h : d.ratio? = some (num, den)) :
    0 < den ∧ (d.value = num / den ∨ num = 0 ∧ 2 * d.value < double.value 1) := by
  unfold ratio? at h
  split at h
  · rename_i hzero
    cases h
    rw [value, hzero, Nat.cast_zero, zero_mul, zero_div]
    exact ⟨Nat.one_pos, .inl rfl⟩
  split at h
  · cases h
  split at h
  · rename_i hplaces
    cases h
    exact ⟨Nat.one_pos, .inr ⟨rfl, value_lt_of_places hplaces⟩⟩
  · cases h
    refine ⟨Nat.pow_pos (by decide), .inl ?_⟩
    have h := cast_scaleUp_div d.coefficient 1 (by decide : 0 < 10) d.exponent
    rw [Nat.one_mul, Nat.cast_one, div_one] at h
    exact h.symm

theorem value_nonneg (d : Decimal) : 0 ≤ d.value := by
  unfold value
  positivity

/-- The double of a ratio. -/
def ratioDouble (negative : Bool) (num den : ℕ) : Double where
  negative
  magnitude := if num = 0 then 0 else double.pack (double.round num den)
  le := by
    split
    · exact Nat.zero_le _
    · exact min_le_right _ _

/-- The double of a numeral. -/
def toDouble (negative : Bool) (d : Decimal) : Double :=
  match d.ratio? with
  | none => ⟨negative, Double.infinityBits, le_rfl⟩
  | some (num, den) => ratioDouble negative num den

/-- The double of a numeral is the nearest one. -/
theorem isNearest_toDouble (negative : Bool) (d : Decimal) :
    (d.toDouble negative).IsNearest negative d.value := by
  unfold toDouble
  cases hratio : d.ratio? with
  | none => exact ⟨rfl, isNearest_infinity (le_value_of_ratio? hratio)⟩
  | some ratio =>
    obtain ⟨hd, hvalue⟩ := value_of_ratio? hratio
    refine ⟨rfl, ?_⟩
    show double.IsNearest _ (if _ then _ else _)
    split
    · rename_i hn
      rcases hvalue with hvalue | ⟨-, hsmall⟩
      · rw [hvalue, hn, Nat.cast_zero, zero_div]
        exact isNearest_zero_zero
      · exact isNearest_zero d.value_nonneg hsmall
    · rename_i hn
      rw [hvalue.resolve_right fun h => hn h.1]
      exact double.isNearest_pack (Nat.pos_of_ne_zero hn) hd

/-- A ratio rounded to so many bits may have passed the greatest double, and then it is infinite. -/
theorem narrow_ratioDouble (negative : Bool) (hn : num ≠ 0) (hd : 0 < den) :
    (ratioDouble negative num den).narrow = Single.ofRatio negative (double.round num den).num
      (double.round num den).den := by
  have hden := (double.round num den).den_pos
  have hworth := double.value_pack (Nat.pos_of_ne_zero hn) hd
  have hbits : (ratioDouble negative num den).magnitude = double.pack (double.round num den) :=
    if_neg hn
  rw [Double.narrow, hbits]
  split
  · rename_i hinf
    rw [hinf] at hworth
    refine (Single.ofRatio_of_le _ hden ?_).symm
    rw [← Scaled.value_eq, value_infinity_single]
    calc (2 : ℚ) ^ (128 : ℤ) ≤ 2 ^ (1024 : ℤ) := zpow_le_zpow_right₀ (by norm_num) (by norm_num)
      _ = double.value Double.infinityBits := value_infinity_double.symm
      _ ≤ (double.round num den).value := min_eq_right_iff.mp hworth.symm
  · rename_i hfinite
    refine Single.ofRatio_congr _ (Scaled.den_pos _) hden ?_
    rw [← Scaled.value_eq, ← Scaled.value_eq, ← scaledOf_double]
    have hlt := double.strictMono_value (lt_of_le_of_ne (min_le_right _ _) hfinite)
    rcases min_choice (double.round num den).value (double.value double.infinity) with h | h
    · exact hworth.trans h
    · exact absurd (hworth.trans h) hlt.ne

end Decimal

/-- A numeral is read as the double nearest to it, narrowed. -/
theorem Single.ofDecimalTwice_eq (negative : Bool) (d : Decimal) :
    ofDecimalTwice negative d = (d.toDouble negative).narrow := by
  unfold ofDecimalTwice Decimal.toDouble
  cases hratio : d.ratio? with
  | none => exact (if_pos rfl).symm
  | some ratio =>
    obtain ⟨num, den⟩ := ratio
    show (if num = 0 then _ else _) = (Decimal.ratioDouble negative num den).narrow
    split
    · rename_i hn
      have hzero : (Decimal.ratioDouble negative num den).magnitude = 0 := if_pos hn
      rw [Double.narrow, hzero, if_neg (by decide)]
      rfl
    · rename_i hn
      exact (Decimal.narrow_ratioDouble negative hn (Decimal.value_of_ratio? hratio).1).symm

end StackScript
