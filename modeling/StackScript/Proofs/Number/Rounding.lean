import Mathlib
import StackScript.Number.Rounding

/-!
# Exact rounding

What the rounded quotients and the exponents of `Number.Rounding` are as rational numbers.

* `IsNearestEven x n`: of the integers `n` is nearest to `x`, and even if another one is as near.
  `divEven` gives it (`isNearestEven_divEven`); where a bound is even, it is passed from half a unit
  below on (`le_divEven_iff`).
* `log10_eq`: the exponent of the first digit is the greatest whose power is not above the quotient.
* `Scaled.value`: what a magnitude is worth; its first bit tells the powers of two around it
  (`Scaled.zpow_log2_le`).
-/

namespace StackScript.Number

/-! ## Quotients -/

/-- Of the integers `n` is the nearest to `x`; of two that are, it is the even one. -/
structure IsNearestEven (x : ℚ) (n : ℕ) : Prop where
  nearest : ∀ k : ℤ, |x - n| ≤ |x - k|
  even : ∀ k : ℤ, k ≠ n → |x - n| = |x - k| → Even n

variable {num den : ℕ}

/-- Half way between two integers, the rounded quotient is even. -/
theorem even_divEven_of_tie (h : 0 < den) (htie : 2 * num = 2 * (divEven num den * den) + den ∨
    2 * num + den = 2 * (divEven num den * den)) : Even (divEven num den) := by
  have e := Nat.div_add_mod num den
  have l := Nat.mod_lt num h
  rw [Nat.even_iff]
  simp only [divEven] at htie ⊢
  rw [Nat.mul_comm] at e
  split at htie
  · rename_i hlow
    rw [if_pos hlow]
    omega
  · rename_i hhigh
    rw [if_neg hhigh]
    rw [Nat.add_mul, Nat.one_mul] at htie
    omega

theorem mul_den_eq (num : ℕ) (h : 0 < den) : (num : ℚ) / den * den = num :=
  div_mul_cancel₀ _ (by exact_mod_cast h.ne')

theorem abs_sub_divEven_le (num : ℕ) (h : 0 < den) :
    |(num : ℚ) / den - divEven num den| ≤ 1 / 2 := by
  obtain ⟨hupper, hlower⟩ := divEven_within_half num h
  have hden : (0 : ℚ) < den := by exact_mod_cast h
  have hquot := mul_den_eq num h
  have hupper : 2 * (divEven num den * den : ℚ) ≤ 2 * num + den := by exact_mod_cast hupper
  have hlower : 2 * (num : ℚ) ≤ 2 * (divEven num den * den) + den := by exact_mod_cast hlower
  rw [abs_le]
  constructor <;> nlinarith

/-- The rounded quotient is the nearest integer, the even one of two. -/
theorem isNearestEven_divEven (h : 0 < den) : IsNearestEven (num / den) (divEven num den) := by
  have hhalf := abs_sub_divEven_le num h
  have hfar (k : ℤ) (hk : k ≠ divEven num den) : 1 / 2 ≤ |(num : ℚ) / den - k| := by
    have hone : (1 : ℚ) ≤ |(divEven num den : ℚ) - k| := by
      have : 1 ≤ |(divEven num den : ℤ) - k| := Int.one_le_abs (sub_ne_zero.mpr hk.symm)
      exact_mod_cast this
    have htriangle := abs_sub_le (divEven num den : ℚ) (num / den) k
    rw [abs_sub_comm (divEven num den : ℚ) (num / den)] at htriangle
    linarith
  refine ⟨fun k => ?_, fun k hk heq => ?_⟩
  · by_cases hk : k = divEven num den
    · rw [hk]
      exact le_of_eq (by norm_cast)
    · exact hhalf.trans (hfar k hk)
  · have htie : |(num : ℚ) / den - divEven num den| = 1 / 2 :=
      le_antisymm hhalf (heq ▸ hfar k hk)
    have hquot := mul_den_eq num h
    refine even_divEven_of_tie h ?_
    rcases (abs_eq (by norm_num)).mp htie with hd | hd
    · left
      have : (2 * num : ℚ) = 2 * (divEven num den * den) + den := by
        rw [← hquot]
        linear_combination 2 * (den : ℚ) * hd
      exact_mod_cast this
    · right
      have : (2 * num + den : ℚ) = 2 * (divEven num den * den) := by
        rw [← hquot]
        linear_combination 2 * (den : ℚ) * hd
      exact_mod_cast this

/-- An even number is reached from half a unit below on. -/
theorem le_divEven_iff {n : ℕ} (h : 0 < den) (hn : Even n) :
    n ≤ divEven num den ↔ 2 * (n * den) ≤ 2 * num + den := by
  obtain ⟨hupper, hlower⟩ := divEven_within_half num h
  constructor
  · intro hle
    have := Nat.mul_le_mul_right den hle
    omega
  · intro hhalf
    by_contra hlt
    have hle : (divEven num den + 1) * den ≤ n * den := Nat.mul_le_mul_right den (by omega)
    have hnext : n < divEven num den + 2 := by
      have : n * den < (divEven num den + 2) * den := by
        rw [Nat.add_mul]
        omega
      exact Nat.lt_of_mul_lt_mul_right this
    obtain rfl : n = divEven num den + 1 := by omega
    have htie : 2 * num = 2 * (divEven num den * den) + den := by
      rw [Nat.add_mul, Nat.one_mul] at hhalf
      omega
    exact Nat.even_add_one.mp hn (even_divEven_of_tie h (.inl htie))

/-- A quotient that is not above an integer is not rounded above it. -/
theorem divEven_le {n : ℕ} (h : 0 < den) (hn : num ≤ n * den) : divEven num den ≤ n := by
  have hupper := (divEven_within_half num h).1
  by_contra hlt
  have : (n + 1) * den ≤ divEven num den * den := Nat.mul_le_mul_right den (by omega)
  rw [Nat.add_mul] at this
  omega

/-- A quotient that is not below an integer is not rounded below it. -/
theorem le_divEven {n : ℕ} (h : 0 < den) (hn : n * den ≤ num) : n ≤ divEven num den := by
  have hdiv : n ≤ num / den := (Nat.le_div_iff_mul_le h).mpr hn
  simp only [divEven]
  split
  · exact hdiv
  · exact hdiv.trans (Nat.le_succ _)

/-- An integer that is nearer to a quotient than half a unit is its rounding. -/
theorem divEven_eq_of_within {n : ℕ} (h : 0 < den) (hlow : 2 * (n * den) < 2 * num + den)
    (hhigh : 2 * num < 2 * (n * den) + den) : divEven num den = n := by
  obtain ⟨hupper, hlower⟩ := divEven_within_half num h
  have hle : divEven num den * den < (n + 1) * den := by
    rw [Nat.add_mul]
    omega
  have hge : n * den < (divEven num den + 1) * den := by
    rw [Nat.add_mul]
    omega
  have := Nat.lt_of_mul_lt_mul_right hle
  have := Nat.lt_of_mul_lt_mul_right hge
  omega

/-- What is rounded to a multiple of `b` is rounded to the same number in units that are `b` times
as large: it is nearer to it than half of them. -/
theorem divEven_of_mul {b n : ℕ} (hb : 1 < b) (h : 0 < den)
    (hn : divEven (num * b) den = n * b) : divEven num den = n := by
  obtain ⟨hupper, hlower⟩ := divEven_within_half (num * b) h
  rw [hn] at hupper hlower
  have hden : den < den * b := lt_mul_of_one_lt_right h hb
  refine divEven_eq_of_within h ?_ ?_
  · refine Nat.lt_of_mul_lt_mul_right (a := b) ?_
    calc 2 * (n * den) * b = 2 * (n * b * den) := by ring
      _ ≤ 2 * (num * b) + den := hupper
      _ < 2 * (num * b) + den * b := Nat.add_lt_add_left hden _
      _ = (2 * num + den) * b := by ring
  · refine Nat.lt_of_mul_lt_mul_right (a := b) ?_
    calc 2 * num * b = 2 * (num * b) := by ring
      _ ≤ 2 * (n * b * den) + den := hlower
      _ < 2 * (n * b * den) + den * b := Nat.add_lt_add_left hden _
      _ = (2 * (n * den) + den) * b := by ring

/-- A quotient below an even number is rounded to it from half a unit below on. -/
theorem divEven_eq_iff {n : ℕ} (h : 0 < den) (hn : Even n) (hlt : (num : ℚ) / den < n) :
    divEven num den = n ↔ (n : ℚ) - 1 / 2 ≤ num / den := by
  have hden : (0 : ℚ) < den := by exact_mod_cast h
  have hle : divEven num den ≤ n := by
    rw [div_lt_iff₀ hden] at hlt
    exact divEven_le h (by exact_mod_cast hlt.le)
  have hcast : 2 * (n * den) ≤ 2 * num + den ↔ 2 * ((n : ℚ) * den) ≤ 2 * num + den := by
    exact_mod_cast Iff.rfl
  rw [Nat.le_antisymm_iff, and_iff_right hle, le_divEven_iff h hn, hcast, le_div_iff₀ hden]
  constructor <;> intro h <;> linarith

/-- A ratio is rounded alike in whatever numbers it is written. -/
theorem divEven_mul_mul (num den : ℕ) {k : ℕ} (hk : 0 < k) :
    divEven (num * k) (den * k) = divEven num den := by
  have hlt (a b : ℕ) : 2 * (a * k) < b * k ↔ 2 * a < b := by
    rw [← Nat.mul_assoc]
    exact Nat.mul_lt_mul_right hk
  have heq (a b : ℕ) : 2 * (a * k) = b * k ↔ 2 * a = b := by
    rw [← Nat.mul_assoc]
    exact Nat.mul_left_inj hk.ne'
  simp only [divEven, Nat.mul_div_mul_right _ _ hk, Nat.mul_mod_mul_right, hlt, heq]

/-! ## Exponents -/

theorem digitCount_pos (n : ℕ) : 0 < digitCount n :=
  List.length_pos_iff.mpr Nat.toDigits_ne_nil

theorem lt_pow_digitCount (n : ℕ) : n < 10 ^ digitCount n :=
  (Nat.length_toDigits_le_iff (by decide) (digitCount_pos n)).mp le_rfl

theorem pow_digitCount_le {n : ℕ} (h : 0 < n) : 10 ^ (digitCount n - 1) ≤ n := by
  rcases Nat.eq_or_lt_of_le (digitCount_pos n) with hone | hmore
  · rw [← hone]
    exact h
  · by_contra hlt
    have hfew : digitCount n ≤ digitCount n - 1 :=
      (Nat.length_toDigits_le_iff (by decide) (by omega)).mpr (by omega)
    omega

/-- The exponent of the first digit is the greatest whose power of ten is not above the quotient. -/
theorem log10_eq (hn : 0 < num) (hd : 0 < den) : log10 num den = Int.log 10 ((num : ℚ) / den) := by
  have hnum : (0 : ℚ) < num := by exact_mod_cast hn
  have hden : (0 : ℚ) < den := by exact_mod_cast hd
  suffices h : (10 : ℚ) ^ log10 num den ≤ num / den ∧ (num : ℚ) / den < 10 ^ (log10 num den + 1) by
    have hle := (Int.zpow_le_iff_le_log (b := 10) (by decide) (div_pos hnum hden)).mp h.1
    have hlt := (Int.lt_zpow_iff_log_lt (b := 10) (by decide) (div_pos hnum hden)).mp h.2
    omega
  rw [le_div_iff₀ hden, div_lt_iff₀ hden]
  unfold log10
  split
  · rename_i hle
    have hpos : 0 < num / den := Nat.div_pos hle hd
    obtain ⟨k, hk⟩ := Nat.exists_eq_add_one.mpr (digitCount_pos (num / den))
    have hlow : 10 ^ k * den ≤ num := by
      have := pow_digitCount_le hpos
      rw [hk] at this
      exact (Nat.mul_le_mul_right den this).trans (Nat.div_mul_le_self num den)
    have hhigh : num < 10 ^ (k + 1) * den := by
      have := lt_pow_digitCount (num / den)
      rw [hk] at this
      exact (Nat.div_lt_iff_lt_mul hd).mp this
    rw [hk, show ((k + 1 : ℕ) : ℤ) - 1 = k by omega,
      show (k : ℤ) + 1 = (k + 1 : ℕ) by omega, zpow_natCast, zpow_natCast]
    exact ⟨by exact_mod_cast hlow, by exact_mod_cast hhigh⟩
  · rename_i hlt
    have hpos : 0 < (den - 1) / num := Nat.div_pos (by omega) hn
    obtain ⟨k, hk⟩ := Nat.exists_eq_add_one.mpr (digitCount_pos ((den - 1) / num))
    have hlow : den ≤ num * 10 ^ (k + 1) := by
      have := lt_pow_digitCount ((den - 1) / num)
      rw [hk, Nat.div_lt_iff_lt_mul hn] at this
      rw [Nat.mul_comm]
      omega
    have hhigh : num * 10 ^ k < den := by
      have := pow_digitCount_le hpos
      rw [hk, Nat.add_sub_cancel, Nat.le_div_iff_mul_le hn] at this
      rw [Nat.mul_comm]
      omega
    have hlow : (den : ℚ) ≤ num * 10 ^ (k + 1) := by exact_mod_cast hlow
    have hhigh : (num : ℚ) * 10 ^ k < den := by exact_mod_cast hhigh
    rw [hk, show -((k + 1 : ℕ) : ℤ) + 1 = -(k : ℕ) by omega, zpow_neg, zpow_neg,
      zpow_natCast, zpow_natCast, inv_mul_le_iff₀ (by positivity), lt_inv_mul_iff₀ (by positivity)]
    exact ⟨by rwa [mul_comm], by rwa [mul_comm]⟩

/-! ## Magnitudes -/

theorem cast_scaleUp (b : ℕ) (e : ℤ) : (scaleUp b e : ℚ) = (b : ℚ) ^ e.toNat := by
  rw [scaleUp]
  exact Nat.cast_pow b e.toNat

/-- A ratio with a power put into its numerator or its denominator. -/
theorem cast_scaleUp_div (num den : ℕ) {b : ℕ} (hb : 0 < b) (e : ℤ) :
    ((num * scaleUp b e : ℕ) : ℚ) / (den * scaleUp b (-e) : ℕ) = num / den * (b : ℚ) ^ e := by
  have hb' : (b : ℚ) ≠ 0 := by exact_mod_cast hb.ne'
  have hpow : (b : ℚ) ^ e * b ^ (-e).toNat = b ^ e.toNat := by
    rw [← zpow_natCast, ← zpow_natCast, ← zpow_add₀ hb']
    congr 1
    omega
  rw [Nat.cast_mul, Nat.cast_mul, cast_scaleUp, cast_scaleUp, ← hpow]
  field_simp

/-- What a magnitude is worth. -/
def Scaled.value (s : Scaled) : ℚ := s.mant * 2 ^ s.exp

theorem Scaled.value_eq (s : Scaled) : s.value = s.num / s.den := by
  have h := cast_scaleUp_div s.mant 1 (by decide : 0 < 2) s.exp
  rw [Nat.one_mul, Nat.cast_one, div_one] at h
  exact h.symm

theorem Scaled.value_eq_zero_iff {s : Scaled} : s.value = 0 ↔ s.mant = 0 := by
  rw [value, mul_eq_zero, Nat.cast_eq_zero]
  exact or_iff_left (by positivity)

/-- A magnitude lies between the power of two of its first bit and the next one. -/
theorem Scaled.zpow_log2_le {s : Scaled} (h : s.mant ≠ 0) :
    (2 : ℚ) ^ (s.exp + s.mant.log2) ≤ s.value ∧ s.value < 2 ^ (s.exp + s.mant.log2 + 1) := by
  have hle : (2 ^ s.mant.log2 : ℚ) ≤ s.mant := by exact_mod_cast Nat.log2_self_le h
  have hlt : (s.mant : ℚ) < 2 ^ (s.mant.log2 + 1) := by
    exact_mod_cast (Nat.lt_log2_self : s.mant < 2 ^ (s.mant.log2 + 1))
  have hpos : (0 : ℚ) < 2 ^ s.exp := by positivity
  have hsplit (k : ℕ) : (2 : ℚ) ^ (s.exp + k) = 2 ^ k * 2 ^ s.exp := by
    rw [zpow_add₀ (by norm_num), zpow_natCast, mul_comm]
  rw [show s.exp + s.mant.log2 + 1 = s.exp + (s.mant.log2 + 1 : ℕ) by push_cast; ring, hsplit,
    hsplit, value]
  exact ⟨mul_le_mul_of_nonneg_right hle hpos.le, mul_lt_mul_of_pos_right hlt hpos⟩

/-- The power of two that is reached and whose next one is not is told by the number. -/
theorem eq_of_zpow_le_of_lt {m : ℚ} {i j : ℤ} (hi : (2 : ℚ) ^ i ≤ m) (hi' : m < 2 ^ (i + 1))
    (hj : (2 : ℚ) ^ j ≤ m) (hj' : m < 2 ^ (j + 1)) : i = j := by
  have hij := (zpow_lt_zpow_iff_right₀ (by norm_num : (1 : ℚ) < 2)).mp (hi.trans_lt hj')
  have hji := (zpow_lt_zpow_iff_right₀ (by norm_num : (1 : ℚ) < 2)).mp (hj.trans_lt hi')
  omega

end StackScript.Number
