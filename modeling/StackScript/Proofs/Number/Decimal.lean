import StackScript.Number.Decimal
import StackScript.Proofs.Number.Rounding
import StackScript.Proofs.Numeral.Digits

/-!
# Decimal notation and exact numbers

* `IsRounded p m r`: rounded to `p` significant digits, `m` is `r`. The significant digits are worth
  this number (`isRounded_significant`), and their exponent is that of its first digit
  (`log_worth_significant`), a carry into one digit more included.
* `divEven_mul_pow_eq`: rounded at the place of the last of these digits, after a carry the one
  before, the number has the same digits.
* `significant_snd_eq_iff`: when the last of the significant digits of a number stands for units.
-/

namespace StackScript.Number

open Numeral

variable {num den : ℕ}

/-! ## Significant digits -/

/-- The unit of the last of `p` significant decimal digits of a number. -/
def digitUnit (p : ℕ) (m : ℚ) : ℚ := 10 ^ (Int.log 10 m + 1 - p)

/-- A number is `m` rounded to `p` significant decimal digits: it is the multiple of the unit of the
last of them that is nearest to `m`, a tie going to the even multiple. -/
def IsRounded (p : ℕ) (m r : ℚ) : Prop :=
  ∃ k : ℕ, r = k * digitUnit p m ∧ IsNearestEven (m / digitUnit p m) k

/-- What `p + 1` digits and the exponent of the first of them are worth. -/
def worth (p : ℕ) (d : ℕ × ℤ) : ℚ := d.1 * 10 ^ (d.2 - p)

/-- The digits before a carry, and the quotient of which they are the rounding. -/
def roundedDigits (p num den : ℕ) : ℕ :=
  divEven (num * scaleUp 10 (p - log10 num den)) (den * scaleUp 10 (-(p - log10 num den)))

theorem scaled_den_pos (num : ℕ) (hd : 0 < den) (p : ℕ) :
    0 < den * scaleUp 10 (-(p - log10 num den)) :=
  Nat.mul_pos hd (Nat.pow_pos (by decide))

section

variable (hn : 0 < num) (hd : 0 < den) (p : ℕ)
include hn hd

/-- The quotient that is rounded is the number in units of its last digit. -/
theorem cast_div_eq :
    ((num * scaleUp 10 (p - log10 num den) : ℕ) : ℚ) /
      (den * scaleUp 10 (-(p - log10 num den)) : ℕ) =
      (num / den : ℚ) / digitUnit (p + 1) (num / den) := by
  rw [cast_scaleUp_div num den (by decide : 0 < 10), digitUnit, ← log10_eq hn hd,
    div_eq_mul_inv _ (_ ^ _), ← zpow_neg, Nat.cast_ofNat]
  congr 2
  push_cast
  ring

omit hd in
theorem significant_eq : significant p num den =
    if roundedDigits p num den = 10 ^ (p + 1) then (10 ^ p, log10 num den + 1)
    else (roundedDigits p num den, log10 num den) := by
  rw [significant, if_neg hn.ne']
  rfl

/-- So many digits are rounded, or one more after a carry. -/
theorem roundedDigits_bounds :
    10 ^ p ≤ roundedDigits p num den ∧ roundedDigits p num den ≤ 10 ^ (p + 1) := by
  have hnum : (0 : ℚ) < num := by exact_mod_cast hn
  have hden : (0 : ℚ) < den := by exact_mod_cast hd
  have hm : (0 : ℚ) < num / den := div_pos hnum hden
  have hpos := scaled_den_pos num hd p
  have hpos' : (0 : ℚ) < (den * scaleUp 10 (-(p - log10 num den)) : ℕ) := by exact_mod_cast hpos
  have hquot := cast_div_eq hn hd p
  have hunit : 0 < digitUnit (p + 1) (num / den) := by
    unfold digitUnit
    positivity
  have hpow (k : ℕ) : (10 : ℚ) ^ (Int.log 10 (num / den : ℚ) - p + k) =
      10 ^ k * digitUnit (p + 1) (num / den) := by
    rw [digitUnit, zpow_add₀ (by norm_num), zpow_natCast, mul_comm]
    congr 2
    push_cast
    ring
  have hlow := Int.zpow_log_le_self (b := 10) (by decide) hm
  have hhigh := Int.lt_zpow_succ_log_self (b := 10) (by decide) (num / den : ℚ)
  constructor
  · refine le_divEven hpos ?_
    have : ((10 ^ p : ℕ) : ℚ) ≤ (num / den : ℚ) / digitUnit (p + 1) (num / den) := by
      rw [le_div_iff₀ hunit, Nat.cast_pow, Nat.cast_ofNat, ← hpow, sub_add_cancel]
      exact hlow
    rw [← hquot, le_div_iff₀ hpos'] at this
    exact_mod_cast this
  · refine divEven_le hpos ?_
    have : (num / den : ℚ) / digitUnit (p + 1) (num / den) ≤ ((10 ^ (p + 1) : ℕ) : ℚ) := by
      rw [div_le_iff₀ hunit, Nat.cast_pow, Nat.cast_ofNat, ← hpow]
      refine le_of_lt (hhigh.trans_eq ?_)
      rw [Nat.cast_ofNat]
      congr 1
      push_cast
      ring
    rw [← hquot, div_le_iff₀ hpos'] at this
    exact_mod_cast this

theorem significant_fst_bounds :
    10 ^ p ≤ (significant p num den).1 ∧ (significant p num den).1 < 10 ^ (p + 1) := by
  obtain ⟨hlow, hhigh⟩ := roundedDigits_bounds hn hd p
  rw [significant_eq hn p]
  split
  · exact ⟨le_rfl, Nat.pow_lt_pow_right (by decide) (Nat.lt_succ_self p)⟩
  · rename_i hcarry
    exact ⟨hlow, lt_of_le_of_ne hhigh hcarry⟩

omit hn in
theorem significant_fst_lt (num : ℕ) : (significant p num den).1 < 10 ^ (p + 1) := by
  rcases Nat.eq_zero_or_pos num with rfl | hn
  · exact Nat.pow_pos (by decide)
  · exact (significant_fst_bounds hn hd p).2

/-- A carry changes the digits and their exponent, and not what they are worth. -/
theorem worth_significant : worth p (significant p num den) =
    roundedDigits p num den * digitUnit (p + 1) (num / den) := by
  have hunit : digitUnit (p + 1) (num / den) = 10 ^ (log10 num den - p) := by
    rw [digitUnit, ← log10_eq hn hd]
    congr 1
    push_cast
    ring
  rw [significant_eq hn p, hunit, worth]
  split
  · rename_i hcarry
    rw [hcarry]
    dsimp only
    rw [show log10 num den + 1 - (p : ℤ) = log10 num den - p + 1 by ring,
      zpow_add_one₀ (by norm_num)]
    push_cast
    ring
  · rfl

end

/-- Significant digits are worth the number rounded. -/
theorem isRounded_significant (num : ℕ) (hd : 0 < den) (p : ℕ) :
    IsRounded (p + 1) (num / den) (worth p (significant p num den)) := by
  rcases Nat.eq_zero_or_pos num with rfl | hn
  · refine ⟨0, by simp [worth, significant], ?_⟩
    have h : IsNearestEven ((0 * den : ℕ) / den) (divEven (0 * den) den) :=
      isNearestEven_divEven hd
    rw [divEven_mul 0 hd, Nat.zero_mul, Nat.cast_zero, zero_div] at h
    rwa [Nat.cast_zero, zero_div, zero_div]
  · refine ⟨roundedDigits p num den, worth_significant hn hd p, ?_⟩
    rw [← cast_div_eq hn hd]
    exact isNearestEven_divEven (scaled_den_pos num hd p)

/-- The exponent of significant digits is that of the rounded number. -/
theorem log_worth_significant (num : ℕ) (hd : 0 < den) (p : ℕ) :
    Int.log 10 (worth p (significant p num den)) = (significant p num den).2 := by
  rcases Nat.eq_zero_or_pos num with rfl | hn
  · simp [worth, significant]
  · obtain ⟨hlow, hhigh⟩ := significant_fst_bounds hn hd p
    generalize significant p num den = d at hlow hhigh ⊢
    obtain ⟨n, e⟩ := d
    have hpow (k : ℕ) : (10 : ℚ) ^ (e - p + k) = 10 ^ k * 10 ^ (e - p) := by
      rw [zpow_add₀ (by norm_num), zpow_natCast, mul_comm]
    have hunit : (0 : ℚ) < 10 ^ (e - p) := by positivity
    have hlow : (10 : ℚ) ^ p ≤ n := by exact_mod_cast hlow
    have hhigh : (n : ℚ) < 10 ^ (p + 1) := by exact_mod_cast hhigh
    have hpos : 0 < worth p (n, e) :=
      mul_pos (lt_of_lt_of_le (by positivity) hlow) hunit
    have hle : ((10 : ℕ) : ℚ) ^ e ≤ worth p (n, e) := by
      rw [worth, Nat.cast_ofNat, show e = e - p + p by ring, hpow, sub_add_cancel]
      exact mul_le_mul_of_nonneg_right hlow hunit.le
    have hlt : worth p (n, e) < ((10 : ℕ) : ℚ) ^ (e + 1) := by
      rw [worth, Nat.cast_ofNat, show e + 1 = e - p + (p + 1 : ℕ) by push_cast; ring, hpow]
      exact mul_lt_mul_of_pos_right hhigh hunit
    have := (Int.zpow_le_iff_le_log (b := 10) (by decide) hpos).mp hle
    have := (Int.lt_zpow_iff_log_lt (b := 10) (by decide) hpos).mp hlt
    show Int.log 10 (worth p (n, e)) = e
    omega

/-- Rounded at the place of the last significant digit after a carry, a number has these digits,
also where the carry has moved the place. -/
theorem divEven_mul_pow_eq (num : ℕ) (hd : 0 < den) {p q : ℕ}
    (hq : (q : ℤ) = p - (significant p num den).2) :
    divEven (num * 10 ^ q) den = (significant p num den).1 := by
  rcases Nat.eq_zero_or_pos num with rfl | hn
  · simp [significant, divEven, hd]
  · rw [significant_eq hn p] at hq ⊢
    have hscale (k : ℕ) (hk : (k : ℤ) = p - log10 num den) :
        roundedDigits p num den = divEven (num * 10 ^ k) den := by
      rw [roundedDigits, ← hk, scaleUp, scaleUp, Int.toNat_natCast,
        show (-(k : ℤ)).toNat = 0 by omega]
      show divEven (num * 10 ^ k) (den * 1) = _
      rw [Nat.mul_one]
    split at hq
    · rename_i hcarry
      rw [if_pos hcarry]
      rw [hscale (q + 1) (by push_cast; omega), pow_succ, ← Nat.mul_assoc, pow_succ] at hcarry
      exact divEven_of_mul (by decide) hd hcarry
    · rename_i hcarry
      rw [if_neg hcarry]
      exact (hscale q (by omega)).symm

/-! ## The place of the last digit -/

theorem significant_snd (hn : 0 < num) (p : ℕ) :
    (significant p num den).2 =
      if roundedDigits p num den = 10 ^ (p + 1) then log10 num den + 1 else log10 num den := by
  rw [significant_eq hn p]
  split <;> rfl

/-- Rounded to `p + 1` digits, a number has the exponent `p` from half a unit of the place after the
units below `10 ^ p` on, where it is rounded up to this power, and to half a unit below
`10 ^ (p + 1)`. -/
theorem significant_snd_eq_iff (hn : 0 < num) (hd : 0 < den) (p : ℕ) :
    (significant p num den).2 = p ↔
      (10 : ℚ) ^ p - 1 / 20 ≤ num / den ∧ (num : ℚ) / den < 10 ^ (p + 1) - 1 / 2 := by
  have hnum : (0 : ℚ) < num := by exact_mod_cast hn
  have hden : (0 : ℚ) < den := by exact_mod_cast hd
  have hpow : (1 : ℚ) ≤ 10 ^ p := one_le_pow₀ (by norm_num)
  have hnext : (10 : ℚ) ^ (p + 1) = 10 * 10 ^ p := pow_succ' 10 p
  have heven : Even (10 ^ (p + 1)) := (by decide : Even 10).pow_of_ne_zero (by omega)
  have hlow (k : ℤ) : (10 : ℚ) ^ k ≤ num / den ↔ k ≤ log10 num den := by
    rw [log10_eq hn hd]
    exact Int.zpow_le_iff_le_log (b := 10) (by decide) (div_pos hnum hden)
  have hhigh (k : ℤ) : (num : ℚ) / den < 10 ^ k ↔ log10 num den < k := by
    rw [log10_eq hn hd]
    exact Int.lt_zpow_iff_log_lt (b := 10) (by decide) (div_pos hnum hden)
  rw [significant_snd hn, roundedDigits]
  generalize log10 num den = e at hlow hhigh ⊢
  by_cases hunits : e = p
  · -- The digits end with the units, unless they are rounded up to one digit more.
    have hfrom : (10 : ℚ) ^ p ≤ num / den := by exact_mod_cast (hlow p).mpr hunits.ge
    have hbelow : (num : ℚ) / den < (10 ^ (p + 1) : ℕ) := by
      exact_mod_cast (hhigh (p + 1)).mpr (by omega)
    have hscale : num * scaleUp 10 (p - e) = num ∧ den * scaleUp 10 (-(p - e)) = den := by
      rw [hunits, sub_self, neg_zero]
      exact ⟨Nat.mul_one num, Nat.mul_one den⟩
    have hup := divEven_eq_iff hd heven hbelow
    rw [hscale.1, hscale.2, hunits]
    push_cast at hup
    split
    · rename_i h
      have := hup.mp h
      exact ⟨fun h => absurd h (by omega), fun h => absurd h.2 (not_lt.mpr this)⟩
    · rename_i h
      have := mt hup.mpr h
      exact ⟨fun _ => ⟨by linarith, not_le.mp this⟩, fun _ => rfl⟩
  by_cases htenths : e + 1 = p
  · -- The digits end with the tenths, unless they are rounded up to one digit more.
    have hbelow : (num : ℚ) / den < 10 ^ p := by exact_mod_cast (hhigh p).mpr (by omega)
    have hbelow' : ((num * 10 : ℕ) : ℚ) / den < (10 ^ (p + 1) : ℕ) := by
      push_cast
      rw [hnext, mul_comm, mul_div_assoc]
      linarith
    have hscale : num * scaleUp 10 (p - e) = num * 10 ∧ den * scaleUp 10 (-(p - e)) = den := by
      rw [show (p : ℤ) - e = 1 by omega]
      exact ⟨rfl, Nat.mul_one den⟩
    have hup := divEven_eq_iff hd heven hbelow'
    rw [hscale.1, hscale.2, htenths]
    push_cast at hup
    rw [hnext, mul_comm (num : ℚ), mul_div_assoc] at hup
    split
    · rename_i h
      have := hup.mp h
      exact ⟨fun _ => ⟨by linarith, by linarith⟩, fun _ => rfl⟩
    · rename_i h
      have := mt hup.mpr h
      exact ⟨fun h => absurd h (by omega), fun h => absurd (by linarith [h.1]) this⟩
  · -- The exponent is another, also after rounding.
    have hout : (num : ℚ) / den < 10 ^ p - 1 / 20 ∨ (10 : ℚ) ^ (p + 1) ≤ num / den := by
      rcases lt_or_gt_of_ne hunits with hless | hmore
      · left
        have hbelow := (hhigh (p - 1)).mpr (by omega)
        rw [zpow_sub_one₀ (by norm_num), zpow_natCast] at hbelow
        linarith
      · right
        exact_mod_cast (hlow (p + 1)).mpr (by omega)
    have hne : (if divEven (num * scaleUp 10 (p - e)) (den * scaleUp 10 (-(p - e))) = 10 ^ (p + 1)
        then e + 1 else e) ≠ p := by
      split <;> omega
    refine ⟨fun h => absurd h hne, fun h => ?_⟩
    rcases hout with hout | hout <;> linarith [h.1, h.2]

end StackScript.Number
