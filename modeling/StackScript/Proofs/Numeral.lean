import Mathlib
import StackScript.Numeral
import StackScript.Text.Utf8

/-!
# Numbers read from texts, and written in base ten

* `heldDigits_eq`: to hold a magnitude digit by digit is to hold the exact one at the end, so that
  `leadingInt_of_split` gives a number by its exact value.
* `leadingInt_decimalText`: a number that was written is read back, whatever its first digit; only
  zero is read in base eight.
* `natBelow?_eq_some_iff`: the texts that are read as a number without a sign, `Writes` being the
  digits that write one.
* `ofDigits_append`: digits count by their places.
* `toNat_of_mem_decimal`: what a number is written with, and `size_decimalText_le` how long it is.
-/

namespace StackScript.Numeral

open Text

theorem digits_ne_nil (n : Nat) : digits 10 n ≠ [] := Nat.toDigits_ne_nil

theorem toNat_of_isDigit_ten {c : Char} (h : isDigit 10 c = true) :
    48 ≤ c.toNat ∧ c.toNat ≤ 57 := by
  simp only [isDigit, digitValue] at h
  split at h
  · rename_i hc
    exact hc
  · split at h
    · simp at h
    · split at h <;> simp at h

theorem isDigit_ten_of_mem_digits {n : Nat} {c : Char} (h : c ∈ digits 10 n) :
    isDigit 10 c = true :=
  isDigit_of_mem_digits (by decide) (by decide) h

theorem isSpace_of_toNat {c : Char} (h : 33 ≤ c.toNat) : isSpace c = false := by
  have hb : c ≠ ' ' := by
    rintro rfl
    exact absurd h (by decide)
  have hr : ¬ c ≤ '\r' := by
    intro hc
    have : c.toNat ≤ 13 := hc
    omega
  simp [isSpace, hb, hr]

/-! ## Reading digits -/

/-- The first digit of a number is no zero. -/
theorem head?_digits_ne_zero {base n : Nat} (hb : 1 < base) (hb' : base ≤ 16) (h : 0 < n) :
    (digits base n).head? ≠ some '0' := by
  have hdigit : ∀ d < 16, 0 < d → d.digitChar ≠ '0' := by decide
  induction n using Nat.strongRecOn with
  | _ n ih =>
    rw [digits, Nat.toDigits_eq_if hb]
    split
    · rename_i hn
      simpa using hdigit n (by omega) h
    · rename_i hn
      rw [List.head?_append_of_ne_nil _ Nat.toDigits_ne_nil]
      exact ih _ (Nat.div_lt_self h hb) (Nat.div_pos (by omega) (by omega))

theorem splitBase_of_head?_ne {cs : List Char} (h : cs.head? ≠ some '0') :
    splitBase cs = (10, cs) := by
  unfold splitBase
  split
  · exact absurd rfl h
  · exact absurd rfl h
  · rfl

theorem splitSign_of_isDigit {c : Char} (cs : List Char) (h : isDigit 10 c = true) :
    splitSign (c :: cs) = (false, c :: cs) := by
  have hc := toNat_of_isDigit_ten h
  unfold splitSign
  split
  · rename_i e
    obtain rfl : '-' = c := (List.cons.inj e).1.symm
    exact absurd hc (by decide)
  · rename_i e
    obtain rfl : '+' = c := (List.cons.inj e).1.symm
    exact absurd hc (by decide)
  · rfl

/-- The digits of a number tell a base in which they write the number. -/
theorem splitBase_digits (n : Nat) :
    ∃ base, splitBase (digits 10 n) = (base, digits 10 n) ∧
      ofDigits base ((digits 10 n).takeWhile (isDigit base)) = n := by
  rcases Nat.eq_zero_or_pos n with rfl | hn
  · exact ⟨8, by decide, by decide⟩
  · refine ⟨10, splitBase_of_head?_ne (head?_digits_ne_zero (by decide) (by decide) hn), ?_⟩
    have ht : (digits 10 n).takeWhile (isDigit 10) = digits 10 n :=
      List.takeWhile_eq_self_iff.mpr fun c hc => isDigit_ten_of_mem_digits hc
    rw [ht, ofDigits_digits (by decide) (by decide)]

/-! ## Reading numbers -/

/-- The characters of a number are digits, and a minus sign at the most. -/
theorem toNat_of_mem_decimal {n : Int} {c : Char} (h : c ∈ decimal n) :
    45 ≤ c.toNat ∧ c.toNat ≤ 57 := by
  have hd : ∀ c ∈ digits 10 n.natAbs, 45 ≤ c.toNat ∧ c.toNat ≤ 57 := fun c hc => by
    have := toNat_of_isDigit_ten (isDigit_ten_of_mem_digits hc)
    omega
  unfold decimal at h
  split at h
  · rcases List.mem_cons.mp h with rfl | h
    · decide
    · exact hd c h
  · exact hd c h

theorem dropWhile_isSpace_decimal (n : Int) : (decimal n).dropWhile isSpace = decimal n := by
  cases h : decimal n with
  | nil => rfl
  | cons c cs =>
    have hc := toNat_of_mem_decimal (n := n) (h ▸ List.mem_cons_self : c ∈ decimal n)
    exact List.dropWhile_cons_of_neg (by simp [isSpace_of_toNat (show 33 ≤ c.toNat by omega)])

theorem splitSign_decimal (n : Int) :
    splitSign (decimal n) = (decide (n < 0), digits 10 n.natAbs) := by
  unfold decimal
  split
  · rename_i h
    simp [splitSign, h]
  · rename_i h
    obtain ⟨c, cs, hc⟩ := List.exists_cons_of_ne_nil (digits_ne_nil n.natAbs)
    have hd : isDigit 10 c = true :=
      isDigit_ten_of_mem_digits (n := n.natAbs) (hc ▸ List.mem_cons_self)
    rw [hc, splitSign_of_isDigit cs hd]
    simp [h]

/-- A magnitude that is held digit by digit is the exact one held at the end. -/
theorem heldDigits_eq {base : Nat} (hb : 0 < base) (cs : List Char) :
    heldDigits base cs = min (ofDigits base cs) maxMagnitude := by
  -- The invariant of the loop: what is kept is the exact number so far, held.
  have hstep (n : Nat) (c : Char) : holdDigit base (min n maxMagnitude) c =
      min (n * base + (digitValue c).getD 0) maxMagnitude := by
    have hheld : maxMagnitude ≤ maxMagnitude * base := Nat.le_mul_of_pos_right _ hb
    have hexact : n ≤ n * base := Nat.le_mul_of_pos_right _ hb
    rcases Nat.le_total n maxMagnitude with hn | hn
    · rw [holdDigit, Nat.min_eq_left hn]
      omega
    · rw [holdDigit, Nat.min_eq_right hn]
      omega
  have hloop (n : Nat) : cs.foldl (holdDigit base) (min n maxMagnitude) =
      min (cs.foldl (fun n c => n * base + (digitValue c).getD 0) n) maxMagnitude := by
    induction cs generalizing n with
    | nil => rfl
    | cons c cs ih => rw [List.foldl_cons, List.foldl_cons, hstep, ih]
  exact hloop 0

theorem splitBase_pos (cs : List Char) : 0 < (splitBase cs).1 := by
  unfold splitBase
  split
  · split <;> exact Nat.zero_lt_succ _
  · exact Nat.zero_lt_succ _
  · exact Nat.zero_lt_succ _

/-- What is read where sign and base are told: the number of the digits, held with its sign. -/
theorem leadingInt_of_split {text : String} {negative : Bool} {base : Nat} {cs ds : List Char}
    (hs : splitSign (text.toList.dropWhile isSpace) = (negative, cs))
    (hb : splitBase cs = (base, ds)) :
    leadingInt text =
      let magnitude : Int := min (ofDigits base (ds.takeWhile (isDigit base))) maxMagnitude
      Int32.ofInt (if negative then -magnitude else magnitude) := by
  have hpos : 0 < base := by
    have := splitBase_pos cs
    rwa [hb] at this
  simp only [leadingInt, hs, hb, heldDigits_eq hpos, Nat.cast_min]

/-- A number that was written is read back, unless it is too great to be kept. -/
theorem leadingInt_decimalText {n : Int} (h : n.natAbs ≤ maxMagnitude) :
    leadingInt (decimalText n) = Int32.ofInt n := by
  obtain ⟨base, hb, hn⟩ := splitBase_digits n.natAbs
  have hm : min (n.natAbs : Int) maxMagnitude = n.natAbs := min_eq_left (by exact_mod_cast h)
  have hs : splitSign ((decimalText n).toList.dropWhile isSpace) =
      (decide (n < 0), digits 10 n.natAbs) := by
    rw [decimalText, String.toList_ofList, dropWhile_isSpace_decimal, splitSign_decimal]
  simp only [leadingInt_of_split hs hb, hn, hm, decide_eq_true_eq]
  congr 1
  split <;> omega

/-- A number of 32 bits that was written is read back. -/
theorem leadingInt_decimalText_toInt (n : Int32) : leadingInt (decimalText n.toInt) = n := by
  have hlt := n.toInt_lt
  have hle := n.le_toInt
  have h : n.toInt.natAbs ≤ maxMagnitude := by
    rw [maxMagnitude]
    omega
  rw [leadingInt_decimalText h, Int32.ofInt_toInt]

/-! ## Reading whole texts -/

/-- The characters are digits in a base, at least one, and write a number. -/
structure Writes (base : Nat) (cs : List Char) (n : Nat) : Prop where
  ne_nil : cs ≠ []
  digits : ∀ c ∈ cs, isDigit base c = true
  value : ofDigits base cs = n

/-- The characters write a number in a base, with a plus sign before them or without. -/
def Reads (base : Nat) (cs : List Char) (n : Nat) : Prop :=
  Writes base cs n ∨ ∃ ds, cs = '+' :: ds ∧ Writes base ds n

section Writes

variable {bound base n : Nat} {cs : List Char}

theorem natOf?_eq_some_iff : natOf? base cs = some n ↔ Writes base cs n := by
  unfold natOf?
  constructor
  · intro h
    split at h
    · rename_i hcs
      exact ⟨hcs.1, List.all_eq_true.mp hcs.2, Option.some.inj h⟩
    · cases h
  · rintro ⟨hne, hdigits, rfl⟩
    exact if_pos ⟨hne, List.all_eq_true.mpr hdigits⟩

theorem not_writes_plus : ¬ Writes base ('+' :: cs) n := fun h =>
  absurd (h.digits '+' List.mem_cons_self) (by simp [isDigit, digitValue])

/-- A number below a bound is read from its digits; a plus sign before them does not count. -/
theorem natBelow?_eq_some_iff : natBelow? bound base cs = some n ↔ n < bound ∧ Reads base cs n := by
  unfold natBelow?
  split
  · simp only [Option.filter_eq_some_iff, natOf?_eq_some_iff, decide_eq_true_eq, Reads,
      not_writes_plus, false_or, List.cons.injEq, true_and, exists_eq_left']
    exact And.comm
  · rename_i hplus
    have hnone : ¬ ∃ ds, cs = '+' :: ds ∧ Writes base ds n := fun ⟨ds, hds, _⟩ => hplus ds hds
    simp only [Option.filter_eq_some_iff, natOf?_eq_some_iff, decide_eq_true_eq, Reads, hnone,
      or_false]
    exact And.comm

end Writes

theorem natOf?_digits (n : Nat) : natOf? 10 (digits 10 n) = some n :=
  natOf?_eq_some_iff.mpr ⟨digits_ne_nil n, fun _ hc => isDigit_ten_of_mem_digits hc,
    ofDigits_digits (by decide) (by decide) n⟩

/-- A number of 32 bits that was written is read back, whole. -/
theorem int32Of?_decimal (n : Int32) : int32Of? (decimal n.toInt) = some n := by
  have hlt := n.toInt_lt
  have hle := n.le_toInt
  have hvalue : (if n.toInt < 0 then -(n.toInt.natAbs : Int) else n.toInt.natAbs) = n.toInt := by
    split <;> omega
  simp only [int32Of?, splitSign_decimal, natOf?_digits, decide_eq_true_eq, hvalue,
    Int32.ofInt_toInt]
  exact if_pos ⟨hle, Int.le_of_lt_add_one hlt⟩

/-! ## Digits by their places -/

/-- Digits count by their values. -/
theorem ofDigits_congr {base : Nat} {cs ds : List Char}
    (h : cs.map digitValue = ds.map digitValue) : ofDigits base cs = ofDigits base ds := by
  have hmap (es : List Char) : ofDigits base es =
      (es.map digitValue).foldl (fun n d => n * base + d.getD 0) 0 := by
    rw [List.foldl_map, ofDigits]
  rw [hmap, hmap, h]

@[simp] theorem ofDigits_nil (base : Nat) : ofDigits base [] = 0 := rfl

/-- One more digit at the end. -/
theorem ofDigits_concat (base : Nat) (cs : List Char) (c : Char) :
    ofDigits base (cs ++ [c]) = ofDigits base cs * base + (digitValue c).getD 0 := by
  rw [ofDigits, List.foldl_append]
  rfl

/-- Digits before others count for the places that these take. -/
theorem ofDigits_append (base : Nat) (cs ds : List Char) :
    ofDigits base (cs ++ ds) = ofDigits base cs * base ^ ds.length + ofDigits base ds := by
  induction ds using List.reverseRecOn with
  | nil => simp
  | append_singleton ds d ih =>
    rw [← List.append_assoc, ofDigits_concat, ih, ofDigits_concat, List.length_append,
      List.length_singleton, Nat.pow_succ]
    ring

theorem ofDigits_zeros (base k : Nat) : ofDigits base (List.replicate k '0') = 0 := by
  induction k with
  | zero => rfl
  | succ k ih =>
    rw [List.replicate_succ', ofDigits_concat, ih, Nat.zero_mul]
    rfl

/-- Zeros in front do not count. -/
theorem ofDigits_padZeros (base n : Nat) (cs : List Char) :
    ofDigits base (padZeros n cs) = ofDigits base cs := by
  rw [padZeros, ofDigits_append, ofDigits_zeros, Nat.zero_mul, Nat.zero_add]

theorem toNat_of_isDigit_sixteen {c : Char} (h : isDigit 16 c = true) :
    (48 ≤ c.toNat ∧ c.toNat ≤ 57) ∨ (65 ≤ c.toNat ∧ c.toNat ≤ 70) ∨
      (97 ≤ c.toNat ∧ c.toNat ≤ 102) := by
  simp only [isDigit, digitValue] at h
  split at h
  · rename_i hc
    exact .inl hc
  · split at h
    · rename_i hc
      exact .inr (.inr hc)
    · split at h
      · rename_i hc
        exact .inr (.inl hc)
      · cases h

/-- A capital digit counts like the small one. -/
theorem digitValue_toUpper {c : Char} (h : isDigit 16 c = true) :
    digitValue c.toUpper = digitValue c := by
  have hc := toNat_of_isDigit_sixteen h
  rw [← Char.ofNat_toNat c]
  generalize c.toNat = n at hc
  rcases hc with ⟨h₁, h₂⟩ | ⟨h₁, h₂⟩ | ⟨h₁, h₂⟩ <;> interval_cases n <;> decide

/-- Only letters have capitals. -/
theorem toUpper_eq_iff {c d : Char} (hd : d.toNat < 65) : c.toUpper = d ↔ c = d := by
  unfold Char.toUpper
  split
  · rename_i hc
    simp only [UInt32.le_iff_toNat_le] at hc
    have hval : d.val.toNat < 65 := hd
    constructor
    · intro h
      have hd := congrArg UInt32.toNat (congrArg Char.val h)
      simp at hd hc
      omega
    · rintro rfl
      simp at hc
      omega
  · rfl

/-! ## Length -/

theorem size_eq_length {cs : List Char} (h : ∀ c ∈ cs, c.toNat < 128) : size cs = cs.length := by
  induction cs with
  | nil => rfl
  | cons c cs ih =>
    obtain ⟨hc, hcs⟩ := List.forall_mem_cons.mp h
    have h1 : c.utf8Size = 1 := Char.utf8Size_eq_one_iff.mpr (Nat.le_of_lt_succ hc)
    rw [size_cons, ih hcs, h1, List.length_cons, Nat.add_comm]

/-- A number of 32 bits is written with at most eleven bytes. -/
theorem size_decimalText_le (n : Int32) : size (decimalText n.toInt).toList ≤ 11 := by
  have hlt := n.toInt_lt
  have hle := n.le_toInt
  have hd : (digits 10 n.toInt.natAbs).length ≤ 10 :=
    (Nat.length_toDigits_le_iff (by decide) (by decide)).mpr (by omega)
  rw [decimalText, String.toList_ofList, size_eq_length fun c hc => by
    have := toNat_of_mem_decimal hc
    omega]
  unfold decimal
  split
  · rw [List.length_cons]
    omega
  · omega

end StackScript.Numeral
