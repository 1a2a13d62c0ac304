import StackScript.Proofs.Number.Rounding

/-!
# The nearest floating-point number

Magnitudes of a binary format stand in the order of their patterns, so that the two around a number
are those of neighbouring patterns.

* `Layout` is a format, `Layout.value` what a pattern is worth. The values grow with the patterns
  (`Layout.strictMono_value`).
* `Layout.IsNearest x b`: of all patterns up to that of infinity, which counts as the power of two
  above the finite values, `b` is nearest to `x`, and even if another one is as near. There is
  no other such pattern (`Layout.IsNearest.unique`).
* `Layout.isNearest_pack`: the magnitude that `nearest` gives, packed, is nearest.
-/

namespace StackScript.Number

variable {num den : ℕ}

/-! ## The exponent of the first bit -/

/-- A ratio in units of a power of two. -/
theorem cast_div_scaleUp (num den : ℕ) (e : ℤ) :
    ((num * scaleUp 2 (-e) : ℕ) : ℚ) / (den * scaleUp 2 e : ℕ) = num / den / 2 ^ e := by
  have h := cast_scaleUp_div num den (by decide : 0 < 2) (-e)
  rw [neg_neg, Nat.cast_ofNat, zpow_neg, ← div_eq_mul_inv] at h
  exact h

theorem den_scaleUp_pos (hd : 0 < den) (e : ℤ) : 0 < den * scaleUp 2 e :=
  Nat.mul_pos hd (Nat.pow_pos (by decide))

/-- A number lies between the power of two of its first bit and the next one. -/
theorem zpow_natLog2_le {n : ℕ} (h : 0 < n) :
    (2 : ℚ) ^ (n.log2 : ℤ) ≤ n ∧ (n : ℚ) < 2 ^ ((n.log2 : ℤ) + 1) := by
  constructor
  · exact_mod_cast Nat.log2_self_le h.ne'
  · exact_mod_cast (Nat.lt_log2_self : n < 2 ^ (n.log2 + 1))

/-- The first bits of numerator and denominator tell the one of the ratio up to one. -/
theorem zpow_natLog2_sub_lt (hn : 0 < num) (hd : 0 < den) :
    (2 : ℚ) ^ ((num.log2 : ℤ) - den.log2 - 1) < num / den ∧
      (num : ℚ) / den < 2 ^ ((num.log2 : ℤ) - den.log2 + 1) := by
  have hden : (0 : ℚ) < den := by exact_mod_cast hd
  obtain ⟨hnum, hnum'⟩ := zpow_natLog2_le hn
  obtain ⟨hden', hden''⟩ := zpow_natLog2_le hd
  rw [lt_div_iff₀ hden, div_lt_iff₀ hden]
  constructor
  · calc (2 : ℚ) ^ ((num.log2 : ℤ) - den.log2 - 1) * den
        < 2 ^ ((num.log2 : ℤ) - den.log2 - 1) * 2 ^ ((den.log2 : ℤ) + 1) := by gcongr
      _ = 2 ^ (num.log2 : ℤ) := by
          rw [← zpow_add₀ (by norm_num)]
          congr 1
          omega
      _ ≤ num := hnum
  · calc (num : ℚ) < 2 ^ ((num.log2 : ℤ) + 1) := hnum'
      _ = 2 ^ ((num.log2 : ℤ) - den.log2 + 1) * 2 ^ (den.log2 : ℤ) := by
          rw [← zpow_add₀ (by norm_num)]
          congr 1
          omega
      _ ≤ 2 ^ ((num.log2 : ℤ) - den.log2 + 1) * den := by gcongr

/-- A ratio lies between the power of two of its first bit and the next one. -/
theorem zpow_log2_le (hn : 0 < num) (hd : 0 < den) :
    (2 : ℚ) ^ log2 num den ≤ num / den ∧ (num : ℚ) / den < 2 ^ (log2 num den + 1) := by
  obtain ⟨hlow, hhigh⟩ := zpow_natLog2_sub_lt hn hd
  unfold log2
  lift_lets
  intro e
  have htest : den * scaleUp 2 e ≤ num * scaleUp 2 (-e) ↔ (2 : ℚ) ^ e ≤ num / den := by
    have hpos : (0 : ℚ) < (den * scaleUp 2 e : ℕ) := by exact_mod_cast den_scaleUp_pos hd e
    have hcast : ((den * scaleUp 2 e : ℕ) : ℚ) ≤ (num * scaleUp 2 (-e) : ℕ) ↔ _ := Nat.cast_le
    rw [← hcast, ← one_le_div hpos, cast_div_scaleUp, one_le_div (by positivity)]
  split
  · rename_i hle
    exact ⟨htest.mp hle, hhigh⟩
  · rename_i hlt
    rw [sub_add_cancel]
    exact ⟨hlow.le, not_le.mp (mt htest.mpr hlt)⟩

/-! ## Formats -/

/-- A binary floating-point format: the number of bits after the first one of a mantissa, the
exponent of the last bit of the least magnitude, and the pattern of infinity. -/
structure Layout where
  fraction : ℕ
  least : ℤ
  infinity : ℕ
  fraction_pos : 0 < fraction

namespace Layout

variable (f : Layout) {x : ℚ} {b c k n : ℕ}

/-- The lowest bit of the exponent, and the bit before the fraction of a normal number. -/
def unit : ℕ := 2 ^ f.fraction

/-- The magnitude that a pattern stands for: the numbers below the first normal one share its
exponent. -/
def scaledOf (b : ℕ) : Scaled :=
  if b / f.unit = 0 then ⟨b % f.unit, f.least⟩
  else ⟨f.unit + b % f.unit, (b / f.unit : ℕ) + (f.least - 1)⟩

/-- What a pattern is worth; infinity counts as the power of two after the finite values. -/
def value (b : ℕ) : ℚ := (f.scaledOf b).value

/-- The place of an exponent among those of the last bits. -/
def place (s : Scaled) : ℕ := (s.exp - f.least).toNat

/-- The pattern of a magnitude with a mantissa of this format. -/
def pack (s : Scaled) : ℕ := min (f.place s * f.unit + s.mant) f.infinity

theorem unit_pos : 0 < f.unit := Nat.two_pow_pos _

theorem even_unit : Even f.unit := Nat.even_pow.mpr ⟨even_two, f.fraction_pos.ne'⟩

theorem value_below (h : n < f.unit) : f.value n = n * 2 ^ f.least := by
  rw [value, scaledOf, if_pos (Nat.div_eq_of_lt h), Nat.mod_eq_of_lt h, Scaled.value]

theorem value_normal (k : ℕ) (h : n < f.unit) :
    f.value ((k + 1) * f.unit + n) = (f.unit + n : ℕ) * 2 ^ (f.least + k) := by
  have hdiv : ((k + 1) * f.unit + n) / f.unit = k + 1 := by
    rw [Nat.add_comm, Nat.add_mul_div_right _ _ f.unit_pos, Nat.div_eq_of_lt h, Nat.zero_add]
  have hmod : ((k + 1) * f.unit + n) % f.unit = n := by
    rw [Nat.add_comm, Nat.add_mul_mod_self_right, Nat.mod_eq_of_lt h]
  rw [value, scaledOf, hdiv, hmod, if_neg k.succ_ne_zero, Scaled.value]
  congr 2
  push_cast
  ring

/-- A pattern without a fraction is worth a power of two. -/
theorem value_mul_unit (k : ℕ) :
    f.value ((k + 1) * f.unit) = 2 ^ ((f.fraction : ℤ) + f.least + k) := by
  have h := f.value_normal k f.unit_pos
  rw [add_zero, add_zero] at h
  rw [h, unit, Nat.cast_pow, Nat.cast_ofNat, ← zpow_natCast, ← zpow_add₀ (by norm_num), add_assoc]

/-- A pattern as a mantissa above a multiple of the unit: the first bit of the mantissa counts as
one in the exponent, and a mantissa that is rounded up to the next power of two as one more. -/
theorem value_mul_add (hn : n ≤ 2 * f.unit) (hk : k = 0 ∨ f.unit ≤ n) :
    f.value (k * f.unit + n) = n * 2 ^ (f.least + k) := by
  rcases Nat.lt_or_ge n f.unit with hlt | hge
  · obtain rfl : k = 0 := hk.resolve_right (not_le.mpr hlt)
    rw [Nat.zero_mul, Nat.zero_add, f.value_below hlt, Nat.cast_zero, add_zero]
  obtain ⟨r, rfl⟩ := Nat.exists_eq_add_of_le hge
  rcases Nat.lt_or_ge r f.unit with hr | hr
  · rw [← f.value_normal k hr]
    congr 1
    ring
  · obtain rfl : r = f.unit := by omega
    have h := f.value_normal (k + 1) f.unit_pos
    rw [add_zero, add_zero, Nat.cast_add_one, ← add_assoc, zpow_add_one₀ (by norm_num)] at h
    rw [show k * f.unit + (f.unit + f.unit) = (k + 1 + 1) * f.unit by ring, h]
    push_cast
    ring

/-- The values grow with the patterns. -/
theorem strictMono_value : StrictMono f.value := by
  refine strictMono_nat_of_lt_succ fun b => ?_
  obtain ⟨k, n, hn, hk, rfl⟩ :
      ∃ k n, n < 2 * f.unit ∧ (k = 0 ∨ f.unit ≤ n) ∧ k * f.unit + n = b := by
    have hmod := Nat.mod_lt b f.unit_pos
    have hdiv := Nat.div_add_mod' b f.unit
    cases hfield : b / f.unit with
    | zero =>
      rw [hfield, Nat.zero_mul, Nat.zero_add] at hdiv
      exact ⟨0, b, by omega, .inl rfl, by omega⟩
    | succ k =>
      rw [hfield, Nat.succ_mul, Nat.add_assoc] at hdiv
      exact ⟨k, f.unit + b % f.unit, by omega, .inr (Nat.le_add_right _ _), hdiv⟩
  rw [Nat.add_assoc, f.value_mul_add hn.le hk,
    f.value_mul_add hn (hk.imp_right fun h => h.trans n.le_succ)]
  have hpos : (0 : ℚ) < 2 ^ (f.least + k) := by positivity
  exact mul_lt_mul_of_pos_right (by exact_mod_cast n.lt_succ_self) hpos

theorem value_zero : f.value 0 = 0 := by
  rw [f.value_below f.unit_pos, Nat.cast_zero, zero_mul]

/-! ## Nearest values -/

/-- Of all patterns up to infinity, the value of this one is nearest to `x`; of two that are, it is
the even one. -/
structure IsNearest (x : ℚ) (b : ℕ) : Prop where
  le : b ≤ f.infinity
  nearest : ∀ c ≤ f.infinity, |x - f.value b| ≤ |x - f.value c|
  even : ∀ c ≤ f.infinity, c ≠ b → |x - f.value b| = |x - f.value c| → Even b

variable {f}

/-- Between two patterns that are as near, there would be a nearer one. -/
theorem IsNearest.not_lt (h : f.IsNearest x b) (h' : f.IsNearest x c) : ¬ b < c := by
  intro hlt
  have hdist : |x - f.value b| = |x - f.value c| :=
    le_antisymm (h.nearest c h'.le) (h'.nearest b h.le)
  have hvalue := f.strictMono_value hlt
  -- The number is half way between the two values.
  have hmiddle : x - f.value b = f.value c - x := by
    rcases abs_eq_abs.mp hdist with heq | heq <;> linarith
  rcases Nat.eq_or_lt_of_le (Nat.succ_le_of_lt hlt) with rfl | hbetween
  · exact Nat.even_add_one.mp (h'.even b h.le hlt.ne hdist.symm) (h.even _ h'.le hlt.ne' hdist)
  · have hlow := f.strictMono_value b.lt_succ_self
    have hhigh := f.strictMono_value hbetween
    have hnear := h.nearest (b + 1) (hbetween.le.trans h'.le)
    rw [abs_of_nonneg (by linarith : 0 ≤ x - f.value b)] at hnear
    rcases le_abs.mp hnear with hle | hle <;> linarith

/-- There is one nearest pattern. -/
theorem IsNearest.unique (h : f.IsNearest x b) (h' : f.IsNearest x c) : b = c :=
  Nat.le_antisymm (Nat.not_lt.mp (h'.not_lt h)) (Nat.not_lt.mp (h.not_lt h'))

/-- A pattern that is nearer than any other is nearest. -/
theorem isNearest_of_lt (hb : b ≤ f.infinity)
    (h : ∀ c ≤ f.infinity, c ≠ b → |x - f.value b| < |x - f.value c|) : f.IsNearest x b := by
  refine ⟨hb, fun c hc => ?_, fun c hc hne heq => absurd heq (h c hc hne).ne⟩
  by_cases hcb : c = b
  · rw [hcb]
  · exact (h c hc hcb).le

/-- From the value of infinity on, a number is infinite. -/
theorem isNearest_infinity (h : f.value f.infinity ≤ x) : f.IsNearest x f.infinity := by
  refine isNearest_of_lt le_rfl fun c hc hne => ?_
  have hlt := f.strictMono_value (lt_of_le_of_ne hc hne)
  rw [abs_of_nonneg (by linarith), abs_of_nonneg (by linarith)]
  linarith

/-- Below half of the least value above zero, a number is zero. -/
theorem isNearest_zero (h : 0 ≤ x) (hhalf : 2 * x < f.value 1) : f.IsNearest x 0 := by
  refine isNearest_of_lt (Nat.zero_le _) fun c _ hne => ?_
  have hle := f.strictMono_value.monotone (Nat.one_le_iff_ne_zero.mpr hne)
  rw [f.value_zero, sub_zero, abs_of_nonneg h, abs_sub_comm, abs_of_nonneg (by linarith)]
  linarith

theorem isNearest_zero_zero : f.IsNearest 0 0 := by
  have hone := f.strictMono_value Nat.zero_lt_one
  rw [f.value_zero] at hone
  exact isNearest_zero le_rfl (by rwa [mul_zero])

/-- One of two neighbouring patterns around a number, the nearer one or the even one, is nearest. -/
theorem isNearest_min {l : ℕ} (hb : b = l ∨ b = l + 1) (hl : f.value l ≤ x)
    (hx : x < f.value (l + 1)) (hlow : |x - f.value b| ≤ |x - f.value l|)
    (hhigh : |x - f.value b| ≤ |x - f.value (l + 1)|)
    (heven : |x - f.value l| = |x - f.value (l + 1)| → Even b) :
    f.IsNearest x (min b f.infinity) := by
  rcases Nat.lt_or_ge f.infinity b with hcap | hfits
  -- The nearer of the two is above infinity, so the lower one is not below it.
  · rw [Nat.min_eq_right hcap.le]
    exact isNearest_infinity ((f.strictMono_value.monotone (by omega)).trans hl)
  rw [Nat.min_eq_left hfits]
  -- The values of all other patterns lie beyond one of the two.
  have hfar (c : ℕ) (hc : c ≠ l) (hc' : c ≠ l + 1) : |x - f.value b| < |x - f.value c| := by
    rcases Nat.lt_or_ge c l with hlt | hge
    · have hvalue := f.strictMono_value hlt
      rw [abs_of_nonneg (sub_nonneg.mpr hl)] at hlow
      refine hlow.trans_lt ?_
      rw [abs_of_nonneg (by linarith)]
      linarith
    · have hvalue := f.strictMono_value (show l + 1 < c by omega)
      rw [abs_of_nonpos (by linarith : x - f.value (l + 1) ≤ 0)] at hhigh
      refine hhigh.trans_lt ?_
      rw [abs_of_nonpos (by linarith)]
      linarith
  refine ⟨hfits, fun c _ => ?_, fun c _ hne heq => ?_⟩
  · by_cases hc : c = l
    · rwa [hc]
    by_cases hc' : c = l + 1
    · rwa [hc']
    exact (hfar c hc hc').le
  · by_cases hc : c = l
    · obtain rfl : b = l + 1 := hb.resolve_left fun h => hne (hc.trans h.symm)
      rw [hc] at heq
      exact heven heq.symm
    by_cases hc' : c = l + 1
    · obtain rfl : b = l := hb.resolve_right fun h => hne (hc'.trans h.symm)
      rw [hc'] at heq
      exact heven heq
    exact absurd heq (hfar c hc hc').ne

/-- Of the two neighbouring mantissas around a number, the nearer one or the even one is nearest. -/
theorem isNearest_of_mantissas {q : ℕ} {e : ℤ}
    (hvalue : ∀ j, j = q ∨ j = q + 1 → f.value (k * f.unit + j) = j * 2 ^ e)
    (hq : (q : ℚ) ≤ x / 2 ^ e) (hq' : x / 2 ^ e < (q + 1 : ℕ)) (hn : n = q ∨ n = q + 1)
    (hnear : IsNearestEven (x / 2 ^ e) n) : f.IsNearest x (min (k * f.unit + n) f.infinity) := by
  have hpos : (0 : ℚ) < 2 ^ e := by positivity
  have hdist (j : ℕ) (hj : j = q ∨ j = q + 1) :
      |x - f.value (k * f.unit + j)| = |x / 2 ^ e - j| * 2 ^ e := by
    rw [hvalue j hj, ← abs_of_pos hpos, ← abs_mul, abs_of_pos hpos, sub_mul,
      div_mul_cancel₀ _ hpos.ne']
  have hnearer (j : ℕ) (hj : j = q ∨ j = q + 1) :
      |x - f.value (k * f.unit + n)| ≤ |x - f.value (k * f.unit + j)| := by
    rw [hdist n hn, hdist j hj]
    exact mul_le_mul_of_nonneg_right (by exact_mod_cast hnear.nearest j) hpos.le
  have heven (j : ℕ) (hj : j ≠ n) (h : |x / 2 ^ e - n| = |x / 2 ^ e - j|) : Even n :=
    hnear.even j (by exact_mod_cast hj) (by exact_mod_cast h)
  refine isNearest_min (l := k * f.unit + q) (by omega) ?_ ?_ (hnearer q (.inl rfl))
    (hnearer (q + 1) (.inr rfl)) fun htie => ?_
  · rwa [hvalue q (.inl rfl), ← le_div_iff₀ hpos]
  · rwa [Nat.add_assoc, hvalue (q + 1) (.inr rfl), ← div_lt_iff₀ hpos]
  · rw [Nat.add_assoc, hdist q (.inl rfl), hdist (q + 1) (.inr rfl)] at htie
    have htie := mul_right_cancel₀ hpos.ne' htie
    refine Even.add (f.even_unit.mul_left k) ?_
    rcases hn with rfl | rfl
    · exact heven (n + 1) n.succ_ne_self htie
    · exact heven q q.succ_ne_self.symm htie.symm

/-! ## Rounding to a format -/

/-- A ratio rounded to a mantissa of the format, without a greatest value. -/
def round (f : Layout) (num den : ℕ) : Scaled := Number.nearest (f.fraction + 1) f.least num den

theorem least_add_place (f : Layout) (num den : ℕ) :
    f.least + f.place (f.round num den) = (f.round num den).exp := by
  have hle : f.least ≤ (f.round num den).exp := le_max_right _ _
  rw [place]
  omega

section

variable (f : Layout) (hn : 0 < num) (hd : 0 < den)
include hn hd

/-- In units of its last bit, a ratio has one bit before the fraction, or it is below those. -/
theorem div_zpow_bounds :
    (num : ℚ) / den / 2 ^ (f.round num den).exp < (2 * f.unit : ℕ) ∧
      (f.place (f.round num den) = 0 ∨ (f.unit : ℚ) ≤ num / den / 2 ^ (f.round num den).exp) := by
  obtain ⟨hlow, hhigh⟩ := zpow_log2_le hn hd
  have hexp : (f.round num den).exp = max (log2 num den - f.fraction) f.least := by
    rw [round, Number.nearest]
    push_cast
    rw [add_sub_cancel_right]
  have hplace := f.least_add_place num den
  have hunit : (f.unit : ℚ) = 2 ^ (f.fraction : ℤ) := by
    rw [unit, Nat.cast_pow, Nat.cast_ofNat, zpow_natCast]
  generalize (f.round num den).exp = e at *
  have hpos : (0 : ℚ) < 2 ^ e := by positivity
  rw [div_lt_iff₀ hpos, le_div_iff₀ hpos, Nat.cast_mul, Nat.cast_ofNat, hunit]
  have hmul : (2 : ℚ) ^ (f.fraction : ℤ) * 2 ^ e = 2 ^ (f.fraction + e : ℤ) :=
    (zpow_add₀ (by norm_num) _ _).symm
  constructor
  · refine hhigh.trans_le ?_
    rw [mul_assoc, hmul, mul_comm, ← zpow_add_one₀ (by norm_num)]
    exact zpow_le_zpow_right₀ (by norm_num) (by omega)
  · refine (Nat.eq_zero_or_pos _).imp_right fun hk => ?_
    rw [hmul]
    refine le_trans ?_ hlow
    exact zpow_le_zpow_right₀ (by norm_num) (by omega)

/-- The mantissas below and above a ratio are told by their patterns, and the rounded one is the
nearer of these. -/
theorem exists_mantissas :
    ∃ q : ℕ, (∀ n, n = q ∨ n = q + 1 → f.value (f.place (f.round num den) * f.unit + n) =
        n * 2 ^ (f.round num den).exp) ∧
      (q : ℚ) ≤ num / den / 2 ^ (f.round num den).exp ∧
      (num : ℚ) / den / 2 ^ (f.round num den).exp < (q + 1 : ℕ) ∧
      ((f.round num den).mant = q ∨ (f.round num den).mant = q + 1) ∧
      IsNearestEven (num / den / 2 ^ (f.round num den).exp) (f.round num den).mant := by
  obtain ⟨hhigh, hlow⟩ := f.div_zpow_bounds hn hd
  have hplace := f.least_add_place num den
  obtain ⟨e, he⟩ : ∃ e, (f.round num den).exp = e := ⟨_, rfl⟩
  have hmant : (f.round num den).mant =
      divEven (num * scaleUp 2 (-(f.round num den).exp)) (den * scaleUp 2 (f.round num den).exp) :=
    rfl
  rw [he] at hhigh hlow hplace hmant ⊢
  have hd' := den_scaleUp_pos hd e
  have hratio := cast_div_scaleUp num den e
  rw [hmant, ← hratio]
  rw [← hratio] at hhigh hlow
  generalize num * scaleUp 2 (-e) = num' at *
  generalize den * scaleUp 2 e = den' at *
  have hpos : (0 : ℚ) < den' := by exact_mod_cast hd'
  refine ⟨num' / den', ?_, Nat.cast_div_le, ?_, ?_, isNearestEven_divEven hd'⟩
  · have hq : num' / den' < 2 * f.unit := by
      rw [div_lt_iff₀ hpos] at hhigh
      rw [Nat.div_lt_iff_lt_mul hd']
      exact_mod_cast hhigh
    have hq' : f.place (f.round num den) = 0 ∨ f.unit ≤ num' / den' := by
      refine hlow.imp_right fun hlow => ?_
      rw [le_div_iff₀ hpos] at hlow
      rw [Nat.le_div_iff_mul_le hd']
      exact_mod_cast hlow
    rw [← hplace]
    rintro n (rfl | rfl)
    · exact f.value_mul_add hq.le hq'
    · exact f.value_mul_add hq (hq'.imp_right fun h => h.trans (Nat.le_succ _))
  · rw [div_lt_iff₀ hpos]
    exact_mod_cast Nat.lt_mul_of_div_lt (Nat.lt_succ_self _) hd'
  · simp only [divEven]
    split
    · exact .inl rfl
    · exact .inr rfl

/-- Before it is held at infinity, the pattern of a rounded ratio is worth the rounded ratio. -/
theorem value_pack : f.value (f.pack (f.round num den)) =
    min (f.round num den).value (f.value f.infinity) := by
  obtain ⟨q, hvalue, -, -, hmant, -⟩ := f.exists_mantissas hn hd
  rw [pack, f.strictMono_value.monotone.map_min, hvalue _ hmant, Scaled.value]

/-- The packed rounding of a ratio is nearest to it. -/
theorem isNearest_pack : f.IsNearest (num / den) (f.pack (f.round num den)) := by
  obtain ⟨q, hvalue, hq, hq', hmant, hnear⟩ := f.exists_mantissas hn hd
  exact isNearest_of_mantissas hvalue hq hq' hmant hnear

end

end Layout

end StackScript.Number
