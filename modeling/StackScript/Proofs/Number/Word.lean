import Mathlib

/-!
# Checked words of 64 bits

Arithmetic on words that has a result only where nothing is lost: no sum, difference or product
leaves the range of a word, and a word is shifted by at most `maxShift` bits.

The results are stated for words that hold a number, so that a computation is followed by rewriting
(`add?_ofNat`, `sub?_ofNat`, `mul?_ofNat`, `shl?_ofNat`, `shr?_ofNat`). Words of ones at the end are
masks (`mask?_ofNat`, `ofNat_and_mask`).
-/

namespace StackScript.Number.Word

/-- A word is shifted by no more bits than a mantissa has after its first one. -/
def maxShift : Nat := 52

/-- The sum of two words, if it is a word. -/
def add? (v w : UInt64) : Option UInt64 :=
  if v.toNat + w.toNat < 2 ^ 64 then some (v + w) else none

/-- The difference of two words, if it is not negative. -/
def sub? (v w : UInt64) : Option UInt64 := if w.toNat ≤ v.toNat then some (v - w) else none

/-- The product of two words, if it is a word. -/
def mul? (v w : UInt64) : Option UInt64 :=
  if v.toNat * w.toNat < 2 ^ 64 then some (v * w) else none

/-- A word with zeros after its bits, if no bit leaves it at the front. -/
def shl? (v n : UInt64) : Option UInt64 :=
  if n.toNat ≤ maxShift ∧ v.toNat * 2 ^ n.toNat < 2 ^ 64 then some (v <<< n) else none

/-- A word without its last bits. -/
def shr? (v n : UInt64) : Option UInt64 := if n.toNat ≤ maxShift then some (v >>> n) else none

/-- The word whose last `n` bits are ones. -/
def mask? (n : UInt64) : Option UInt64 := (shl? 1 n).bind fun v => sub? v 1

variable {a b n : Nat}

theorem toNat_ofNat (h : a < 2 ^ 64) : (UInt64.ofNat a).toNat = a := UInt64.toNat_ofNat_of_lt' h

theorem ofNat_eq_ofNat_iff (ha : a < 2 ^ 64) (hb : b < 2 ^ 64) :
    UInt64.ofNat a = .ofNat b ↔ a = b := by
  rw [← UInt64.toNat_inj, toNat_ofNat ha, toNat_ofNat hb]

theorem add?_ofNat (h : a + b < 2 ^ 64) : add? (.ofNat a) (.ofNat b) = some (.ofNat (a + b)) := by
  rw [add?, toNat_ofNat (by omega), toNat_ofNat (by omega), if_pos h, UInt64.ofNat_add]

theorem sub?_ofNat (h : b ≤ a) (ha : a < 2 ^ 64) :
    sub? (.ofNat a) (.ofNat b) = some (.ofNat (a - b)) := by
  have ha' := toNat_ofNat ha
  have hb' := toNat_ofNat (a := b) (by omega)
  have hle : UInt64.ofNat b ≤ UInt64.ofNat a := UInt64.le_iff_toNat_le.mpr (by rwa [ha', hb'])
  rw [sub?, ha', hb', if_pos h]
  refine congrArg some (UInt64.toNat_inj.mp ?_)
  rw [UInt64.toNat_sub_of_le _ _ hle, ha', hb', toNat_ofNat (by omega)]

theorem mul?_ofNat (h : a * b < 2 ^ 64) (ha : a < 2 ^ 64) (hb : b < 2 ^ 64) :
    mul? (.ofNat a) (.ofNat b) = some (.ofNat (a * b)) := by
  rw [mul?, toNat_ofNat ha, toNat_ofNat hb, if_pos h, UInt64.ofNat_mul]

theorem shr?_ofNat (hn : n ≤ maxShift) (ha : a < 2 ^ 64) :
    shr? (.ofNat a) (.ofNat n) = some (.ofNat (a / 2 ^ n)) := by
  have hn' : n < 64 := Nat.lt_of_le_of_lt hn (by decide)
  have hdiv := Nat.div_le_self a (2 ^ n)
  rw [shr?, toNat_ofNat (by omega), if_pos hn]
  refine congrArg some (UInt64.toNat_inj.mp ?_)
  rw [UInt64.toNat_shiftRight, toNat_ofNat ha, toNat_ofNat (by omega), toNat_ofNat (by omega),
    Nat.mod_eq_of_lt hn', Nat.shiftRight_eq_div_pow]

theorem shl?_ofNat (hn : n ≤ maxShift) (h : a * 2 ^ n < 2 ^ 64) (ha : a < 2 ^ 64) :
    shl? (.ofNat a) (.ofNat n) = some (.ofNat (a * 2 ^ n)) := by
  have hn' : n < 64 := Nat.lt_of_le_of_lt hn (by decide)
  rw [shl?, toNat_ofNat (by omega : n < 2 ^ 64), toNat_ofNat ha, if_pos ⟨hn, h⟩]
  refine congrArg some (UInt64.toNat_inj.mp ?_)
  rw [UInt64.toNat_shiftLeft, toNat_ofNat ha, toNat_ofNat (by omega : n < 2 ^ 64), toNat_ofNat h,
    Nat.mod_eq_of_lt hn', Nat.shiftLeft_eq, Nat.mod_eq_of_lt h]

/-- A single bit. -/
theorem shl?_one (hn : n ≤ maxShift) : shl? 1 (.ofNat n) = some (.ofNat (2 ^ n)) := by
  have hpow : 2 ^ n ≤ 2 ^ 52 := Nat.pow_le_pow_right (by decide) hn
  have h := shl?_ofNat hn (a := 1) (by omega) (by decide)
  rwa [Nat.one_mul] at h

theorem mask?_ofNat (hn : n ≤ maxShift) : mask? (.ofNat n) = some (.ofNat (2 ^ n - 1)) := by
  have hpow : 2 ^ n ≤ 2 ^ 52 := Nat.pow_le_pow_right (by decide) hn
  rw [mask?, shl?_one hn, Option.bind_some]
  exact sub?_ofNat (b := 1) Nat.one_le_two_pow (by omega)

/-- A mask keeps the last bits. -/
theorem ofNat_and_mask (a : Nat) (hn : n ≤ 64) :
    (UInt64.ofNat a &&& .ofNat (2 ^ n - 1)) = .ofNat (a % 2 ^ n) := by
  have hpow : 2 ^ n ≤ 2 ^ 64 := Nat.pow_le_pow_right (by decide) hn
  have hpos : 0 < 2 ^ n := Nat.two_pow_pos n
  have hlt : a % 2 ^ n < 2 ^ n := Nat.mod_lt _ hpos
  refine UInt64.toNat_inj.mp ?_
  rw [UInt64.toNat_and, UInt64.toNat_ofNat', toNat_ofNat (by omega), toNat_ofNat (by omega),
    Nat.and_two_pow_sub_one_eq_mod, Nat.mod_mod_of_dvd _ (Nat.pow_dvd_pow 2 hn)]

/-- The last bit of an odd number is one. -/
theorem ofNat_and_one_eq_one_iff (a : Nat) : UInt64.ofNat a &&& 1 = 1 ↔ a % 2 = 1 := by
  have hmask := ofNat_and_mask a (n := 1) (by decide)
  have hone := ofNat_eq_ofNat_iff (a := a % 2 ^ 1) (b := 1) (by omega) (by decide)
  rw [← hmask] at hone
  exact hone

/-- A bit before the others is added to them. -/
theorem ofNat_two_pow_or (hb : b < 2 ^ n) (hn : n < 64) :
    (UInt64.ofNat (2 ^ n) ||| .ofNat b) = .ofNat (2 ^ n + b) := by
  have hpow : 2 ^ (n + 1) ≤ 2 ^ 64 := Nat.pow_le_pow_right (by decide) hn
  rw [pow_succ] at hpow
  have hor := Nat.two_pow_add_eq_or_of_lt hb 1
  rw [Nat.mul_one] at hor
  refine UInt64.toNat_inj.mp ?_
  rw [UInt64.toNat_or, toNat_ofNat (by omega), toNat_ofNat (by omega), toNat_ofNat (by omega), hor]

end StackScript.Number.Word
