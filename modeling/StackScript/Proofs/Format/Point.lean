import StackScript.Proofs.Format.Pieces
import StackScript.Proofs.Number.Decimal

/-!
# The point of a printed number

The alternative form keeps a point after the digits of a number, also where no digit follows, save
in one place.

* `point_mem_generalForm_iff`: the form of so many significant digits has no point where the last
  of them stands for units.
* `EndsAtUnits` tells these numbers from their exact worth (`significant_eq_iff_endsAtUnits`).
* `point_mem_render_iff`: in the alternative form a point is printed, except by `g` and `G` for
  these numbers.
-/

namespace StackScript.Format

open Number Numeral Text

/-! ## Where a point is printed -/

theorem point_mem_inCase_iff {capital : Bool} {cs : List Char} :
    '.' ∈ inCase capital cs ↔ '.' ∈ cs := by
  unfold inCase
  split
  · simp [toUpper_eq_iff (show ('.' : Char).toNat < 65 by decide)]
  · rfl

/-- Filling adds no point. -/
theorem point_mem_pad_iff (spec : Spec) (lead body : List Char) (zeros : Bool) :
    '.' ∈ spec.pad lead body zeros ↔ '.' ∈ lead ∨ '.' ∈ body := by
  unfold Spec.pad
  dsimp only
  split
  · simp [List.mem_replicate]
  · split <;> simp [List.mem_replicate]

theorem point_notMem_sign (spec : Spec) (negative : Bool) : '.' ∉ spec.sign negative := by
  unfold Spec.sign
  split_ifs <;> simp

theorem point_notMem_digits (n : ℕ) : '.' ∉ digits 10 n := by
  intro h
  exact absurd (isDigit_ten_of_mem_digits h) (by decide)

/-- Places after the point are shown with one, if there are any. -/
theorem point_mem_places_iff {p n : ℕ} : '.' ∈ places p n ↔ 0 < p := by
  unfold places
  dsimp only
  rw [List.mem_append, or_iff_right (point_notMem_digits _)]
  rcases Nat.eq_zero_or_pos p with rfl | hp
  · simp [fraction]
  · have hne : padZeros p (digits 10 (n % Nat.pow 10 p)) ≠ [] := by
      rw [← List.length_pos_iff, length_padZeros]
      omega
    rw [if_neg hp.ne', fraction, if_neg (by simpa using hne)]
    simp [hp]

/-- A mantissa and, without places, the point of the alternative form. -/
theorem point_mem_exponentForm (precision num den : ℕ) :
    '.' ∈ exponentForm true precision num den := by
  unfold exponentForm scientific
  dsimp only
  rcases Nat.eq_zero_or_pos precision with rfl | hp
  · simp [altPoint]
  · simp [point_mem_places_iff.mpr hp]

theorem point_mem_hexForm (precision : Option ℕ) (s : Scaled) :
    '.' ∈ hexForm true precision s := by
  unfold hexForm
  simp

/-- Positional digits get no point in the alternative form: it is there only if places are. -/
theorem point_mem_generalForm_iff (precision num den : ℕ) :
    '.' ∈ generalForm true precision num den ↔
      (significant (max precision 1 - 1) num den).2 ≠ (max precision 1 - 1 : ℕ) := by
  unfold generalForm scientific
  dsimp only
  generalize (significant (max precision 1 - 1) num den).2 = e
  split
  · rw [if_pos rfl, fixed, point_mem_places_iff]
    omega
  · rw [if_pos rfl]
    exact iff_of_true (point_mem_exponentForm _ _ _) (by omega)

/-! ## Numbers whose digits end with the units -/

/-- Rounded to `p` significant digits, a tie to the even one, a number has the last of them at the
place of the units: it is at least `10 ^ (p - 1)`, to which it is rounded from half a tenth below
on, and rounded below `10 ^ p`. A zero has one digit at this place. -/
def EndsAtUnits (p : ℕ) (m : ℚ) : Prop :=
  m = 0 ∧ p = 1 ∨ (10 : ℚ) ^ (p - 1) - 1 / 20 ≤ m ∧ m < 10 ^ p - 1 / 2

theorem significant_eq_iff_endsAtUnits {p : ℕ} (hp : 0 < p) (s : Scaled) :
    (significant (p - 1) s.num s.den).2 = (p - 1 : ℕ) ↔ EndsAtUnits p s.value := by
  have hpow : (1 : ℚ) ≤ 10 ^ (p - 1) := one_le_pow₀ (by norm_num)
  have hden : (0 : ℚ) < s.den := by exact_mod_cast s.den_pos
  rcases Nat.eq_zero_or_pos s.num with hzero | hpos
  · have hvalue : s.value = 0 := by rw [s.value_eq, hzero, Nat.cast_zero, zero_div]
    rw [significant, if_pos hzero, EndsAtUnits, hvalue]
    constructor
    · intro h
      exact .inl ⟨rfl, by simpa [eq_comm] using show p = 1 by omega⟩
    · rintro (⟨-, rfl⟩ | ⟨h, -⟩)
      · rfl
      · linarith
  · have hvalue : 0 < s.value := by
      rw [s.value_eq]
      exact div_pos (by exact_mod_cast hpos) hden
    rw [significant_snd_eq_iff hpos s.den_pos, ← s.value_eq, Nat.sub_add_cancel hp, EndsAtUnits,
      or_iff_right fun h => hvalue.ne' h.1]

/-! ## Printed numbers -/

theorem point_mem_floatBody_iff {spec : Spec} (halt : spec.alt = true) (form : FloatForm)
    (s : Scaled) :
    '.' ∈ floatBody spec form s ↔
      ¬ (form = .general ∧ EndsAtUnits (max (spec.precision.getD 6) 1) s.value) := by
  unfold floatBody
  dsimp only
  rw [halt]
  cases form with
  | fixed =>
    refine iff_of_true ?_ (by simp)
    rw [List.mem_append, fixed, point_mem_places_iff]
    rcases Nat.eq_zero_or_pos (spec.precision.getD 6) with h | h
    · exact .inr (by simp [altPoint, h])
    · exact .inl h
  | exponent => exact iff_of_true (point_mem_exponentForm _ _ _) (by simp)
  | hex => exact iff_of_true (point_mem_hexForm _ _) (by simp)
  | general =>
    rw [point_mem_generalForm_iff, ne_eq, significant_eq_iff_endsAtUnits (by omega)]
    simp

theorem point_mem_renderFloat_iff {spec : Spec} (halt : spec.alt = true) (form : FloatForm)
    (capital negative : Bool) (s : Scaled) :
    '.' ∈ renderFloat spec form capital (.finite negative s) ↔
      ¬ (form = .general ∧ EndsAtUnits (max (spec.precision.getD 6) 1) s.value) := by
  have hradix : '.' ∉ if form = .hex then inCase capital ['0', 'x'] else [] := by
    split
    · simp [point_mem_inCase_iff]
    · simp
  have hsign := point_notMem_sign spec (Exact.finite negative s).isNegative
  unfold renderFloat
  dsimp only
  rw [point_mem_pad_iff, List.mem_append, or_iff_right (not_or.mpr ⟨hsign, hradix⟩),
    point_mem_inCase_iff, point_mem_floatBody_iff halt]

/-- In the alternative form every finite number is printed with a point, by every letter for
numbers, except by `g` and `G` where the digits end with the units. -/
theorem point_mem_render_iff (strings : Strings) (spec : Spec) (halt : spec.alt = true)
    (letter : Char) (hl : letter ∈ "fFeEgGaA".toList) (arg : Value) (hobject : isObject arg = false)
    (negative : Bool) (s : Scaled) (hs : numberArgument arg = .finite negative s) :
    ∃ text, render? strings spec letter arg = some text ∧
      ('.' ∈ text ↔ ¬ ((letter = 'g' ∨ letter = 'G') ∧
        EndsAtUnits (max (spec.precision.getD 6) 1) s.value)) := by
  obtain ⟨form, capital, hform, hgeneral⟩ : ∃ form capital,
      Conversion.ofLetter? letter = some (.float form capital) ∧
        (form = .general ↔ letter = 'g' ∨ letter = 'G') := by
    have hletter : letter = 'f' ∨ letter = 'F' ∨ letter = 'e' ∨ letter = 'E' ∨ letter = 'g' ∨
        letter = 'G' ∨ letter = 'a' ∨ letter = 'A' := by simpa using hl
    rcases hletter with rfl | rfl | rfl | rfl | rfl | rfl | rfl | rfl <;>
      exact ⟨_, _, rfl, by decide⟩
  refine ⟨renderFloat spec form capital (.finite negative s), ?_, ?_⟩
  · cases arg with
    | pointer address => cases hobject
    | int n | float x | string handle =>
      simp only [render?, Conversion.forArgument?, hform, Option.map_some, Conversion.render, hs]
  · rw [point_mem_renderFloat_iff halt, hgeneral]

/-- A five in one digit has no point. -/
theorem point_mem_render_iff_units :
    let spec : Spec := { alt := true, precision := some 1 }
    numberArgument (.int 5) = .finite false ⟨5, 0⟩ ∧
      render? (fun _ => none) spec 'g' (.int 5) = some ['5'] ∧
      EndsAtUnits 1 (Scaled.value ⟨5, 0⟩) := by
  intro spec
  obtain ⟨text, htext, hpoint⟩ := point_mem_render_iff (fun _ => none) spec rfl 'g' (by decide)
    (.int 5) rfl false ⟨5, 0⟩ (by decide)
  have hfive : render? (fun _ => none) spec 'g' (.int 5) = some ['5'] := by decide +kernel
  obtain rfl : ['5'] = text := Option.some.inj (hfive.symm.trans htext)
  refine ⟨by decide, hfive, ?_⟩
  have h := mt hpoint.mpr (by decide)
  exact (not_not.mp h).2

end StackScript.Format
