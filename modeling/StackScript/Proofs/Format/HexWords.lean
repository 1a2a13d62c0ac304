import StackScript.Proofs.Format.Hex
import StackScript.Proofs.Number.Double
import StackScript.Proofs.Number.Word

/-!
# Numbers in base sixteen by their bits

The form with an exponent of two as masks and shifts make it from the bits of a double-precision
number.

* `hexWords?` has no result if an operation on words of 64 bits loses something or shifts too far.
* `hexWords?_eq`: from the bits of a magnitude in the normal range it always has one, and it is the
  form of the exact magnitude.
* `hexForm_exact`: every number that an argument may be is printed exactly or rounded once, and by
  its bits.
-/

namespace StackScript.Format

open Number Numeral Word

/-- The places that hold all bits of a mantissa after its first one. -/
def mantissaPlaces : Nat := 13

/-- Mantissa and exponent of a magnitude by its bits. -/
def splitBits? (bits : UInt64) : Option (UInt64 × Int) := do
  if bits = 0 then
    return (0, 0)
  let field ← shr? bits 52
  let first ← shl? 1 52
  let mask ← mask? 52
  return (first ||| (bits &&& mask), (field &&& 0x7FF).toNat - 1023)

/-- A mantissa rounded to `p` places, fewer than it has: a tie goes to the even digit. -/
def roundWord? (p : Nat) (mantissa : UInt64) : Option UInt64 := do
  let dropped ← sub? (.ofNat mantissaPlaces) (.ofNat p)
  let shift ← mul? dropped 4
  let mask ← mask? shift
  let last ← sub? shift 1
  let half ← shl? 1 last
  let kept ← shr? mantissa shift
  let rest := mantissa &&& mask
  if half < rest ∨ rest = half ∧ kept &&& 1 = 1 then add? kept 1 else return kept

/-- The digits of a mantissa that has `p` places. -/
def wordNumeral? (p : Nat) (mantissa : UInt64) (e : Int) : Option HexNumeral := do
  let shift ← mul? (.ofNat p) 4
  let lead ← shr? mantissa shift
  if p = 0 then
    return ⟨digits 10 lead.toNat, [], e⟩
  let mask ← mask? shift
  return ⟨digits 10 lead.toNat, padZeros p (digits 16 (mantissa &&& mask).toNat), e⟩

/-- The form of the number that has these bits. Places that a mantissa does not have are zeros. -/
def hexWords? (capital alt : Bool) (precision : Option Nat) (bits : UInt64) :
    Option (List Char) := do
  let (mantissa, e) ← splitBits? bits
  let places := precision.getD mantissaPlaces
  let mantissa ← if places < mantissaPlaces then roundWord? places mantissa else some mantissa
  let n ← wordNumeral? (min places mantissaPlaces) mantissa e
  let n : HexNumeral := match precision with
    | none => n.trim
    | some p =>
      { n with fraction := n.fraction ++ List.replicate (p - n.fraction.length) '0' }
  return inCase capital (n.text alt)

section Computation

variable {s : Scaled} {bits : UInt64} {m p : Nat}

theorem splitBits?_eq (h : Double.IsNormal s) (hbits : Double.IsBitsOf s.value bits) :
    splitBits? bits = some (.ofNat (Double.mantissa s), hexExponent s) := by
  have hnat := (Double.isBitsOf_iff h).mp hbits
  have hlt := Double.bitsOf_lt h
  unfold Double.infinityBits at hlt
  obtain rfl : bits = .ofNat (Double.bitsOf s) := by
    rw [← UInt64.toNat_inj, hnat, toNat_ofNat (by omega)]
  by_cases hm : s.mant = 0
  · rw [Double.bitsOf_zero hm, Double.mantissa, hm, Nat.zero_mul, hexExponent, if_pos hm]
    rfl
  obtain ⟨hdiv, hmod⟩ := Double.bitsOf_split h hm
  obtain ⟨hlog, hlow, hhigh⟩ := h.resolve_left hm
  have hne : UInt64.ofNat (Double.bitsOf s) ≠ 0 := fun hzero => by
    rw [← UInt64.toNat_inj, hnat] at hzero
    rw [hzero] at hdiv
    simp at hdiv
    omega
  have hfield : shr? (.ofNat (Double.bitsOf s)) 52 =
      some (.ofNat (Double.bitsOf s / Double.exponentUnit)) := shr?_ofNat (by decide) (by omega)
  have hexponent : UInt64.ofNat (Double.bitsOf s / Double.exponentUnit) &&& 0x7FF =
      .ofNat (Double.bitsOf s / Double.exponentUnit % 2 ^ 11) :=
    ofNat_and_mask _ (n := 11) (by decide)
  have hfirst : shl? 1 52 = some (.ofNat (2 ^ 52)) := shl?_one (by decide)
  have hmask : mask? 52 = some (.ofNat (2 ^ 52 - 1)) := mask?_ofNat (by decide)
  have hword : (UInt64.ofNat (2 ^ 52) ||| (.ofNat (Double.bitsOf s) &&& .ofNat (2 ^ 52 - 1))) =
      .ofNat (Double.mantissa s) := by
    rw [ofNat_and_mask _ (by decide), ofNat_two_pow_or (Nat.mod_lt _ (by decide)) (by decide)]
    exact congrArg UInt64.ofNat hmod
  simp only [splitBits?, if_neg hne, hfield, hfirst, hmask, hword, hexponent,
    Option.bind_eq_bind, Option.bind_some]
  rw [Nat.mod_eq_of_lt (by omega), toNat_ofNat (by omega), hdiv, hexExponent, if_neg hm,
    add_sub_cancel_right]
  rfl

/-- Places are dropped as bits, four for each. -/
theorem exists_shift (hp : p < 13) :
    ∃ k, (13 - p) * 4 = k + 1 ∧ k + 1 ≤ maxShift ∧ 16 ^ (13 - p) = 2 ^ (k + 1) := by
  refine ⟨(13 - p) * 4 - 1, by omega, ?_, ?_⟩
  · unfold maxShift
    omega
  · rw [Nat.sub_add_cancel (by omega), Nat.mul_comm, pow_mul]
    rfl

/-- More than half a unit of what is dropped takes the rest up, and a half does so to an even
number. -/
theorem roundWord?_ofNat (hp : p < 13) (hm : m < 2 ^ 64) :
    roundWord? p (.ofNat m) = some (.ofNat (divEven m (16 ^ (13 - p)))) := by
  obtain ⟨k, hk, hmax, hden⟩ := exists_shift hp
  have hdropped : sub? (.ofNat mantissaPlaces) (.ofNat p) = some (.ofNat (13 - p)) :=
    sub?_ofNat (by unfold mantissaPlaces; omega) (by decide)
  have hshift : mul? (.ofNat (13 - p)) 4 = some (.ofNat (k + 1)) := by
    rw [← hk]
    exact mul?_ofNat (b := 4) (by omega) (by omega) (by decide)
  have hlast : sub? (.ofNat (k + 1)) 1 = some (.ofNat k) :=
    sub?_ofNat (b := 1) (by omega) (by omega)
  have hpow : 2 ^ (k + 1) = 2 * 2 ^ k := by rw [pow_succ, Nat.mul_comm]
  have hsmall : 2 ^ (k + 1) ≤ 2 ^ 52 := Nat.pow_le_pow_right (by decide) hmax
  have hmod : m % 2 ^ (k + 1) < 2 ^ (k + 1) := Nat.mod_lt _ (Nat.two_pow_pos _)
  have hdiv : m / 2 ^ (k + 1) ≤ m / 2 :=
    Nat.div_le_div_left (Nat.le_self_pow (Nat.succ_ne_zero k) 2) (by decide)
  have hsum : add? (.ofNat (m / 2 ^ (k + 1))) 1 = some (.ofNat (m / 2 ^ (k + 1) + 1)) :=
    add?_ofNat (b := 1) (by omega)
  -- The test of the words is the one of the numbers that they hold.
  have hlt : UInt64.ofNat (2 ^ k) < .ofNat (m % 2 ^ (k + 1)) ↔ 2 ^ k < m % 2 ^ (k + 1) :=
    UInt64.ofNat_lt_iff_lt (by unfold UInt64.size; omega) (by unfold UInt64.size; omega)
  have heq : UInt64.ofNat (m % 2 ^ (k + 1)) = .ofNat (2 ^ k) ↔ m % 2 ^ (k + 1) = 2 ^ k :=
    ofNat_eq_ofNat_iff (by omega) (by omega)
  simp only [roundWord?, hdropped, hshift, hlast, shl?_one (Nat.le_of_succ_le hmax),
    shr?_ofNat hmax hm, mask?_ofNat hmax, ofNat_and_mask m (hmax.trans (by decide)), hlt, heq,
    ofNat_and_one_eq_one_iff, hsum, Option.bind_eq_bind, Option.bind_some]
  rw [hden, divEven]
  split
  · rw [if_neg (by omega)]
  · rw [if_pos (by omega)]
    rfl

theorem wordNumeral?_ofNat (hp : p ≤ 13) (hm : m < 2 ^ 64) (e : Int) :
    wordNumeral? p (.ofNat m) e = some (.ofUnits p m e) := by
  have hshift : mul? (.ofNat p) 4 = some (.ofNat (p * 4)) :=
    mul?_ofNat (b := 4) (by omega) (by omega) (by decide)
  have hle : p * 4 ≤ maxShift := by
    unfold maxShift
    omega
  have hpow : 2 ^ (p * 4) = 16 ^ p := by
    rw [Nat.mul_comm, pow_mul]
    rfl
  have hpow64 : (2 : ℕ) ^ (p * 4) ≤ 2 ^ 52 := Nat.pow_le_pow_right (by decide) hle
  have hdiv := Nat.div_le_self m (16 ^ p)
  have hmod : m % 16 ^ p < 16 ^ p := Nat.mod_lt _ (by positivity)
  have hmask := ofNat_and_mask m (by omega : p * 4 ≤ 64)
  have hlead := shr?_ofNat hle hm
  have hones := mask?_ofNat hle
  rw [hpow] at hmask hlead hones
  simp only [wordNumeral?, hshift, hlead, hones, hmask, Option.bind_eq_bind, Option.bind_some]
  rw [toNat_ofNat (by omega), toNat_ofNat (by omega), HexNumeral.ofUnits, hexFraction]
  split <;> rfl

/-- The units of a place are those of the mantissa, rounded. -/
theorem hexUnits_eq (h : s.mant.log2 ≤ 52) (p : Nat) :
    hexUnits p s = divEven (Double.mantissa s * 16 ^ p) (16 ^ 13) := by
  have hden : 2 ^ s.mant.log2 * 2 ^ (52 - s.mant.log2) = 16 ^ 13 := by
    rw [← pow_add, Nat.add_sub_cancel' h]
    rfl
  show divEven (s.mant * 16 ^ p) (2 ^ s.mant.log2) = _
  rw [← divEven_mul_mul _ _ (Nat.two_pow_pos (52 - s.mant.log2)), hden, Nat.mul_right_comm]
  rfl

/-- Few places: the mantissa is rounded. -/
theorem hexUnits_of_lt (h : s.mant.log2 ≤ 52) (hp : p < 13) :
    hexUnits p s = divEven (Double.mantissa s) (16 ^ (13 - p)) := by
  have hden : (16 : ℕ) ^ 13 = 16 ^ (13 - p) * 16 ^ p := by
    rw [← pow_add, Nat.sub_add_cancel hp.le]
  rw [hexUnits_eq h, hden, divEven_mul_mul _ _ (by positivity)]

/-- As many places as the mantissa has, or more: it is exact, with zeros after it. -/
theorem hexUnits_add (h : s.mant.log2 ≤ 52) (k : Nat) :
    hexUnits (13 + k) s = Double.mantissa s * 16 ^ k := by
  rw [hexUnits_eq h, pow_add, Nat.mul_left_comm, Nat.mul_comm (16 ^ 13),
    divEven_mul _ (by positivity)]

/-- The places that a magnitude needs hold its mantissa, up to zeros after it. -/
theorem mantissa_eq (h : s.mant.log2 ≤ 52) :
    Double.mantissa s = hexUnits (hexPlaces s) s * 16 ^ (13 - hexPlaces s) := by
  have hp : hexPlaces s ≤ 13 := by
    unfold hexPlaces
    omega
  have hpow : Double.exponentUnit = 16 ^ hexPlaces s * 16 ^ (13 - hexPlaces s) := by
    rw [← pow_add, Nat.add_sub_cancel' hp]
    rfl
  refine Nat.eq_of_mul_eq_mul_right (Nat.two_pow_pos s.mant.log2) ?_
  rw [Double.mantissa_mul h, Nat.mul_right_comm, hexUnits_hexPlaces, hpow, Nat.mul_assoc]

/-- The computation by words never fails, and prints what the exact magnitude prints. -/
theorem hexWords?_eq (capital alt : Bool) (precision : Option Nat) (h : Double.IsNormal s)
    (hbits : Double.IsBitsOf s.value bits) :
    hexWords? capital alt precision bits = some (inCase capital (hexForm alt precision s)) := by
  have hlog := h.log2_le
  have hlt := Double.mantissa_lt hlog
  have hm : Double.mantissa s < 2 ^ 64 := by
    unfold Double.exponentUnit at hlt
    omega
  have hword := wordNumeral?_ofNat (Nat.le_refl 13) hm (hexExponent s)
  rw [← text_hexNumeral, hexWords?, splitBits?_eq h hbits]
  cases precision with
  | none =>
    have hp : hexPlaces s + (13 - hexPlaces s) = 13 := by
      unfold hexPlaces
      omega
    have hzeros := HexNumeral.ofUnits_mul_pow (hexPlaces s) (hexUnits (hexPlaces s) s)
      (13 - hexPlaces s) (hexExponent s)
    rw [hp, ← mantissa_eq hlog] at hzeros
    simp only [Option.bind_eq_bind, Option.bind_some, Option.getD_none, mantissaPlaces,
      lt_self_iff_false, if_false, min_self, hword, hzeros, HexNumeral.trim_append_zeros]
    rfl
  | some p =>
    rcases Nat.lt_or_ge p 13 with hp | hp
    · have hle := (hexUnits_le p s).trans
        (Nat.mul_le_mul_left 2 (Nat.pow_le_pow_right (by decide) hp.le : 16 ^ p ≤ 16 ^ 13))
      have hround := roundWord?_ofNat hp hm
      rw [← hexUnits_of_lt hlog hp] at hround
      have hword := wordNumeral?_ofNat hp.le (show hexUnits p s < 2 ^ 64 by omega) (hexExponent s)
      simp only [Option.bind_eq_bind, Option.bind_some, Option.getD_some, mantissaPlaces, if_pos hp,
        Nat.min_eq_left hp.le, hround, hword, HexNumeral.length_fraction_ofUnits, Nat.sub_self,
        List.replicate_zero, List.append_nil]
      rfl
    · obtain ⟨k, rfl⟩ := Nat.exists_eq_add_of_le hp
      have hzeros := HexNumeral.ofUnits_mul_pow 13 (Double.mantissa s) k (hexExponent s)
      rw [← hexUnits_add hlog] at hzeros
      simp only [Option.bind_eq_bind, Option.bind_some, Option.getD_some, mantissaPlaces,
        if_neg (Nat.not_lt.mpr hp), Nat.min_eq_right hp, hword,
        HexNumeral.length_fraction_ofUnits, Nat.add_sub_cancel_left, ← hzeros]
      rfl

end Computation

/-! ## Arguments -/

/-- Whatever an argument is, its number is zero or normal in double precision. -/
theorem isNormal_of_numberArgument {arg : Value} {negative : Bool} {s : Scaled}
    (h : numberArgument arg = .finite negative s) : Double.IsNormal s := by
  have hnormal (m : ℕ) (e : ℤ) (hm : m < 2 ^ 53) (hlow : -149 ≤ e) (hhigh : e ≤ 104) :
      Double.IsNormal ⟨m, e⟩ := by
    by_cases hzero : m = 0
    · exact .inl hzero
    · have hlog : m.log2 < 53 := (Nat.log2_lt hzero).mpr hm
      refine .inr ?_
      dsimp only
      omega
  cases arg with
  | int n =>
    obtain ⟨-, rfl⟩ := Exact.finite.inj h
    have hlt := n.toInt_lt
    have hle := n.le_toInt
    exact hnormal _ 0 (by omega) (by decide) (by decide)
  | float x =>
    have hfinite : x.exact = .finite negative s := h
    unfold Single.exact at hfinite
    split at hfinite
    · rename_i hlt
      obtain ⟨-, rfl⟩ := Exact.finite.inj hfinite
      unfold Single.infinityBits at hlt
      rw [Single.scaledOf, Single.exponentUnit]
      split
      · exact hnormal _ (-149) (by omega) (by decide) (by decide)
      · exact hnormal _ _ (by omega) (by omega) (by omega)
    · split at hfinite <;> cases hfinite
  | string handle =>
    obtain ⟨-, rfl⟩ := Exact.finite.inj h
    have hlt := handle.toNat_lt
    exact hnormal _ 0 (by omega) (by decide) (by decide)
  | pointer address =>
    obtain ⟨-, rfl⟩ := Exact.finite.inj h
    exact .inl rfl

/-- The number of an argument is printed exactly where no precision is given, else rounded once at
the last place asked for. Its bits in double precision give the same text, by words that lose
nothing and are shifted by at most 52 bits. -/
theorem hexForm_exact (alt capital : Bool) (precision : Option Nat) (arg : Value) (negative : Bool)
    (s : Scaled) (hs : numberArgument arg = .finite negative s) :
    (∃ n, HexNumeral.read? (inCase capital (hexForm alt precision s)) = some n ∧
      n.Denotes precision s.value) ∧
    (∃! bits, Double.IsBitsOf s.value bits) ∧
    ∀ bits, Double.IsBitsOf s.value bits →
      hexWords? capital alt precision bits = some (inCase capital (hexForm alt precision s)) := by
  have hnormal := isNormal_of_numberArgument hs
  exact ⟨read?_hexForm capital alt precision s, Double.existsUnique_isBitsOf hnormal,
    fun bits hbits => hexWords?_eq capital alt precision hnormal hbits⟩

/-- One and a half is a tie without places, and is carried to two. -/
theorem hexForm_exact_tie :
    numberArgument (.float ⟨0x3FC00000⟩) = .finite false ⟨0xC00000, -23⟩ ∧
      HexNumeral.Denotes ⟨['2'], [], 0⟩ (some 0) (Scaled.value ⟨0xC00000, -23⟩) ∧
      hexWords? false false (some 0) 0x3FF8000000000000 = some "2p+0".toList := by
  have harg : numberArgument (.float ⟨0x3FC00000⟩) = .finite false ⟨0xC00000, -23⟩ := by decide
  obtain ⟨⟨n, hread, hdenotes⟩, -, hwords⟩ :=
    hexForm_exact false false (some 0) (.float ⟨0x3FC00000⟩) false ⟨0xC00000, -23⟩ harg
  have htext : inCase false (hexForm false (some 0) ⟨0xC00000, -23⟩) = "2p+0".toList := by
    decide +kernel
  have hnumeral : HexNumeral.read? "2p+0".toList = some ⟨['2'], [], 0⟩ := by decide +kernel
  rw [htext] at hread hwords
  obtain rfl : (⟨['2'], [], 0⟩ : HexNumeral) = n := Option.some.inj (hnumeral.symm.trans hread)
  have hbits : Double.scaledOf (0x3FF8000000000000 : UInt64).toNat = ⟨0x18000000000000, -52⟩ := by
    decide
  refine ⟨harg, hdenotes, hwords 0x3FF8000000000000 ⟨by decide, ?_⟩⟩
  rw [hbits, Scaled.value, Scaled.value]
  norm_num

end StackScript.Format
