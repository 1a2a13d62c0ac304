import StackScript.Proofs.Number.Rounding

/-!
# Double-precision magnitudes

The bits of the binary floating-point numbers of 64 bits: eleven bits of exponent and 52 bits of
fraction below a sign that magnitudes do not have.

* `scaledOf` is what finite bits stand for, and `IsBitsOf` tells the bits of a number.
* `isBitsOf_iff`: a magnitude whose first bit is in the range of the normal exponents has exactly
  one pattern, `bitsOf`, made of its exponent and of its `mantissa` of 53 bits.
-/

namespace StackScript.Number.Double

/-- The lowest bit of the exponent, and the bit before the fraction of a normal number. -/
def exponentUnit : Nat := 0x10000000000000

/-- The pattern of infinity, above the patterns of all finite magnitudes. -/
def infinityBits : Nat := 0x7FF0000000000000

/-- The magnitude that finite bits stand for: the numbers below the first normal one share its
exponent. -/
def scaledOf (bits : Nat) : Scaled :=
  let field : Nat := bits / exponentUnit
  let fraction : Nat := bits % exponentUnit
  if field = 0 then ⟨fraction, -1074⟩ else ⟨exponentUnit + fraction, (field : Int) - 1075⟩

/-- Bits that stand for a finite number. -/
def IsBitsOf (m : ℚ) (bits : UInt64) : Prop :=
  bits.toNat < infinityBits ∧ (scaledOf bits.toNat).value = m

/-- A magnitude that is zero or has at most 53 bits, the first in the range of the exponents. -/
def IsNormal (s : Scaled) : Prop :=
  s.mant = 0 ∨ s.mant.log2 ≤ 52 ∧ -1022 ≤ s.exp + s.mant.log2 ∧ s.exp + s.mant.log2 ≤ 1023

/-- The mantissa of a magnitude, moved so that 52 bits follow its first one. -/
def mantissa (s : Scaled) : Nat := s.mant * 2 ^ (52 - s.mant.log2)

/-- The bits of a magnitude. The first bit of the mantissa counts as one in the exponent. -/
def bitsOf (s : Scaled) : Nat :=
  if s.mant = 0 then 0
  else (s.exp + s.mant.log2 + 1022).toNat * exponentUnit + mantissa s

variable {s : Scaled} {bits : Nat}

theorem IsNormal.log2_le (h : IsNormal s) : s.mant.log2 ≤ 52 := by
  rcases h with h | h
  · rw [h, Nat.log2_zero]
    decide
  · exact h.1

theorem mantissa_mul (h : s.mant.log2 ≤ 52) :
    mantissa s * 2 ^ s.mant.log2 = s.mant * exponentUnit := by
  rw [mantissa, Nat.mul_assoc, ← pow_add, Nat.sub_add_cancel h]
  rfl

theorem le_mantissa (h : s.mant ≠ 0) (hlog : s.mant.log2 ≤ 52) : exponentUnit ≤ mantissa s := by
  have hle := Nat.mul_le_mul_right exponentUnit (Nat.log2_self_le h)
  rw [← mantissa_mul hlog, Nat.mul_comm] at hle
  exact Nat.le_of_mul_le_mul_right hle (Nat.two_pow_pos _)

theorem mantissa_lt (hlog : s.mant.log2 ≤ 52) : mantissa s < 2 * exponentUnit := by
  have hlt : s.mant < 2 ^ (s.mant.log2 + 1) := Nat.lt_log2_self
  have hlt := Nat.mul_lt_mul_of_pos_right hlt (by decide : 0 < exponentUnit)
  rw [← mantissa_mul hlog, pow_succ, Nat.mul_assoc, Nat.mul_comm (2 ^ _)] at hlt
  exact Nat.lt_of_mul_lt_mul_right hlt

/-- A magnitude as its mantissa, the exponent that of its last bit. -/
theorem value_eq_mantissa (hlog : s.mant.log2 ≤ 52) :
    s.value = mantissa s * 2 ^ (s.exp + s.mant.log2 - 52) := by
  have hmul : (mantissa s : ℚ) * 2 ^ s.mant.log2 = s.mant * 2 ^ 52 := by
    exact_mod_cast mantissa_mul hlog
  have hpow : (2 : ℚ) ^ (52 : ℤ) = 2 ^ 52 := by norm_cast
  rw [Scaled.value, zpow_sub₀ (by norm_num), zpow_add₀ (by norm_num), zpow_natCast, hpow,
    mul_div_assoc', eq_div_iff (by norm_num)]
  linear_combination -(2 : ℚ) ^ s.exp * hmul

theorem bitsOf_lt (h : IsNormal s) : bitsOf s < infinityBits := by
  unfold bitsOf
  split
  · decide
  · rename_i hm
    obtain ⟨hlog, -, hhigh⟩ := h.resolve_left hm
    have hlt := mantissa_lt hlog
    have hfield : (s.exp + s.mant.log2 + 1022).toNat ≤ 2045 := by omega
    have := Nat.mul_le_mul_right exponentUnit hfield
    unfold infinityBits
    unfold exponentUnit at *
    omega

/-- The bits of a normal number are its exponent and the mantissa without its first bit. -/
theorem bitsOf_split (h : IsNormal s) (hm : s.mant ≠ 0) :
    ((bitsOf s / exponentUnit : ℕ) : ℤ) = s.exp + s.mant.log2 + 1023 ∧
      exponentUnit + bitsOf s % exponentUnit = mantissa s := by
  obtain ⟨hlog, hlow, -⟩ := h.resolve_left hm
  have hle := le_mantissa hm hlog
  have hlt := mantissa_lt hlog
  obtain ⟨k, hk⟩ : ∃ k : ℕ, s.exp + s.mant.log2 + 1022 = k :=
    ⟨_, (Int.toNat_of_nonneg (by omega)).symm⟩
  have hbits : bitsOf s = k * exponentUnit + mantissa s := by
    rw [bitsOf, if_neg hm, hk]
    rfl
  rw [hbits]
  unfold exponentUnit at *
  omega

/-- The number of a mantissa and the exponent of a normal number. -/
theorem scaledOf_bitsOf (h : IsNormal s) (hm : s.mant ≠ 0) :
    scaledOf (bitsOf s) = ⟨mantissa s, s.exp + s.mant.log2 - 52⟩ := by
  obtain ⟨hdiv, hmod⟩ := bitsOf_split h hm
  obtain ⟨-, hlow, -⟩ := h.resolve_left hm
  rw [scaledOf, hmod, hdiv, if_neg (by omega)]
  congr 1
  omega

theorem mant_scaledOf (h : bits / exponentUnit ≠ 0) :
    (scaledOf bits).mant = exponentUnit + bits % exponentUnit := by rw [scaledOf, if_neg h]

/-- The first bit of a normal number is the one that its bits leave out. -/
theorem log2_mant_scaledOf (h : bits / exponentUnit ≠ 0) : (scaledOf bits).mant.log2 = 52 := by
  have hlt : bits % exponentUnit < exponentUnit := Nat.mod_lt _ (by decide)
  have hunit : exponentUnit = 2 ^ 52 := rfl
  rw [mant_scaledOf h, Nat.log2_eq_iff (by omega)]
  omega

theorem bitsOf_zero (h : s.mant = 0) : bitsOf s = 0 := if_pos h

theorem scaledOf_eq_zero_iff : (scaledOf bits).mant = 0 ↔ bits = 0 := by
  constructor
  · intro h
    have hdiv := Nat.div_add_mod bits exponentUnit
    have hunit : exponentUnit = 2 ^ 52 := rfl
    by_cases hfield : bits / exponentUnit = 0
    · rw [scaledOf, if_pos hfield] at h
      rw [hfield, Nat.mul_zero, Nat.zero_add] at hdiv
      exact hdiv.symm.trans h
    · rw [mant_scaledOf hfield] at h
      omega
  · rintro rfl
    rfl

/-- The numbers below the normal ones. -/
theorem value_scaledOf_lt (h : bits / exponentUnit = 0) :
    (scaledOf bits).value < 2 ^ (-1022 : ℤ) := by
  have hlt : bits % exponentUnit < 2 ^ 52 := Nat.mod_lt _ (by decide)
  have hlt : ((bits % exponentUnit : ℕ) : ℚ) < 2 ^ 52 := by exact_mod_cast hlt
  rw [scaledOf, if_pos h, Scaled.value, show (-1022 : ℤ) = (52 : ℕ) + -1074 by norm_num,
    zpow_add₀ (by norm_num), zpow_natCast]
  exact mul_lt_mul_of_pos_right hlt (by positivity)

/-- Exponent and mantissa of a normal number are told by the number. -/
theorem eq_bitsOf_of_value_eq (h : IsNormal s) (hvalue : (scaledOf bits).value = s.value) :
    bits = bitsOf s := by
  by_cases hm : s.mant = 0
  · rw [Scaled.value_eq_zero_iff.mpr hm, Scaled.value_eq_zero_iff] at hvalue
    rw [bitsOf_zero hm, scaledOf_eq_zero_iff.mp hvalue]
  obtain ⟨hlog, hlow, -⟩ := h.resolve_left hm
  obtain ⟨hle, hlt⟩ := Scaled.zpow_log2_le hm
  have hfield : bits / exponentUnit ≠ 0 := fun hzero => by
    have hsmall := value_scaledOf_lt hzero
    have hmono := zpow_le_zpow_right₀ (by norm_num : (1 : ℚ) ≤ 2) hlow
    rw [hvalue] at hsmall
    exact absurd (hmono.trans hle) (not_le.mpr hsmall)
  have hlog' := log2_mant_scaledOf hfield
  have hm' : (scaledOf bits).mant ≠ 0 := fun h0 => by simp [h0] at hlog'
  obtain ⟨hle', hlt'⟩ := Scaled.zpow_log2_le hm'
  rw [hvalue, hlog'] at hle' hlt'
  have hexp : s.exp + s.mant.log2 = (scaledOf bits).exp + 52 := by
    exact_mod_cast eq_of_zpow_le_of_lt hle hlt hle' hlt'
  have hmant : mantissa s = (scaledOf bits).mant := by
    have hpow : (2 : ℚ) ^ (scaledOf bits).exp ≠ 0 := by positivity
    have : (mantissa s : ℚ) = (scaledOf bits).mant := by
      refine mul_right_cancel₀ hpow ?_
      rw [← Scaled.value, hvalue, value_eq_mantissa hlog, hexp, add_sub_cancel_right]
    exact_mod_cast this
  have hfieldExp : (scaledOf bits).exp = (bits / exponentUnit : ℕ) - 1075 := by
    rw [scaledOf, if_neg hfield]
  obtain ⟨k, hk⟩ := Nat.exists_eq_succ_of_ne_zero hfield
  have hnat : (((k.succ : ℕ) : ℤ) - 1075 + 52 + 1022).toNat = k := by omega
  have hdiv := Nat.div_add_mod' bits exponentUnit
  rw [hk, Nat.succ_mul] at hdiv
  rw [bitsOf, if_neg hm, hexp, hmant, mant_scaledOf hfield, hfieldExp, hk, hnat]
  omega

/-- A normal magnitude has one pattern. -/
theorem isBitsOf_iff (h : IsNormal s) {bits : UInt64} :
    IsBitsOf s.value bits ↔ bits.toNat = bitsOf s := by
  constructor
  · exact fun hbits => eq_bitsOf_of_value_eq h hbits.2
  · intro hbits
    rw [IsBitsOf, hbits]
    refine ⟨bitsOf_lt h, ?_⟩
    by_cases hm : s.mant = 0
    · rw [bitsOf_zero hm, Scaled.value_eq_zero_iff.mpr hm, Scaled.value_eq_zero_iff]
      rfl
    · rw [scaledOf_bitsOf h hm, value_eq_mantissa (h.resolve_left hm).1, Scaled.value]

theorem existsUnique_isBitsOf (h : IsNormal s) : ∃! bits, IsBitsOf s.value bits := by
  have hlt := bitsOf_lt h
  have hbits : (UInt64.ofNat (bitsOf s)).toNat = bitsOf s :=
    UInt64.toNat_ofNat_of_lt' (hlt.trans (by decide))
  refine ⟨.ofNat (bitsOf s), (isBitsOf_iff h).mpr hbits, fun b hb => ?_⟩
  rw [← UInt64.toNat_inj, hbits]
  exact (isBitsOf_iff h).mp hb

end StackScript.Number.Double
