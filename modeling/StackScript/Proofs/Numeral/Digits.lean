import StackScript.Proofs.Numeral

/-!
# Digits as numbers

How many numbers digits can write, and that they write each in one way.

* `ofDigits_lt`: `k` digits write a number below `base ^ k`.
* `length_digits_le`: no digits of a number are fewer than those it is written with.
* `placeDigits` writes a number with so many digits, and none where none are asked for.
* `eq_of_ofDigits_eq`: as many digits of one alphabet that write the same number are the same.
-/

namespace StackScript.Numeral

theorem isDigit_iff {base : Nat} {c : Char} :
    isDigit base c = true ↔ ∃ d < base, digitValue c = some d := by
  rw [isDigit, Option.any_eq_true]
  constructor
  · rintro ⟨d, hv, hd⟩
    exact ⟨d, of_decide_eq_true hd, hv⟩
  · rintro ⟨d, hd, hv⟩
    exact ⟨d, hv, decide_eq_true hd⟩

theorem toNat_of_isDigit {base : Nat} {c : Char} (hb : base ≤ 16) (h : isDigit base c = true) :
    48 ≤ c.toNat ∧ c.toNat ≤ 102 := by
  obtain ⟨d, hd, hv⟩ := isDigit_iff.mp h
  have := toNat_of_isDigit_sixteen (isDigit_iff.mpr ⟨d, Nat.lt_of_lt_of_le hd hb, hv⟩)
  omega

theorem getD_digitValue_lt {base : Nat} {c : Char} (h : isDigit base c = true) :
    (digitValue c).getD 0 < base := by
  obtain ⟨d, hd, hv⟩ := isDigit_iff.mp h
  rwa [hv, Option.getD_some]

theorem isDigit_of_mem_padZeros {base p n : Nat} {c : Char} (h : 1 < base) (h' : base ≤ 16)
    (hc : c ∈ padZeros p (digits base n)) : isDigit base c = true := by
  rcases List.mem_append.mp hc with hc | hc
  · obtain ⟨-, rfl⟩ := List.mem_replicate.mp hc
    exact isDigit_iff.mpr ⟨0, by omega, rfl⟩
  · exact isDigit_of_mem_digits h h' hc

/-- Zeros before a number do not matter to what is read. -/
theorem natOf?_padZeros (p n : Nat) : natOf? 10 (padZeros p (digits 10 n)) = some n := by
  refine natOf?_eq_some_iff.mpr ⟨?_, fun c hc => ?_, ?_⟩
  · exact List.append_ne_nil_of_right_ne_nil _ (digits_ne_nil n)
  · exact isDigit_of_mem_padZeros (by decide) (by decide) hc
  · rw [ofDigits_padZeros, ofDigits_digits (by decide) (by decide)]

theorem ofDigits_zero_cons (base : Nat) (cs : List Char) :
    ofDigits base ('0' :: cs) = ofDigits base cs := by
  have h := ofDigits_append base (List.replicate 1 '0') cs
  rwa [ofDigits_zeros, Nat.zero_mul, Nat.zero_add] at h

/-- So many digits write a number that needs no more. -/
theorem ofDigits_lt {base : Nat} {cs : List Char} (h : ∀ c ∈ cs, isDigit base c = true) :
    ofDigits base cs < base ^ cs.length := by
  induction cs using List.reverseRecOn with
  | nil => simp
  | append_singleton cs c ih =>
    have hc := getD_digitValue_lt (h c (by simp))
    have hcs : ofDigits base cs + 1 ≤ base ^ cs.length := ih fun d hd => h d (by simp [hd])
    rw [ofDigits_concat, List.length_append, List.length_singleton, Nat.pow_succ]
    calc ofDigits base cs * base + (digitValue c).getD 0
        < ofDigits base cs * base + base := Nat.add_lt_add_left hc _
      _ = (ofDigits base cs + 1) * base := by ring
      _ ≤ base ^ cs.length * base := Nat.mul_le_mul_right base hcs

/-- A number is written with the fewest digits that write it, one at the least. -/
theorem length_digits_le {base : Nat} (hb : 1 < base) {cs : List Char} (hne : cs ≠ [])
    (h : ∀ c ∈ cs, isDigit base c = true) :
    (digits base (ofDigits base cs)).length ≤ cs.length :=
  (Nat.length_toDigits_le_iff hb (List.length_pos_iff.mpr hne)).mpr (ofDigits_lt h)

/-! ## So many digits -/

/-- A number written with `p` digits. -/
def placeDigits (base p n : Nat) : List Char := if p = 0 then [] else padZeros p (digits base n)

section Places

variable {base p n : Nat} (hb : 1 < base)
include hb

theorem length_placeDigits (h : n < base ^ p) : (placeDigits base p n).length = p := by
  unfold placeDigits
  split
  · rename_i hp
    exact hp.symm
  · rename_i hp
    have hlen : (digits base n).length ≤ p :=
      (Nat.length_toDigits_le_iff hb (Nat.pos_of_ne_zero hp)).mpr h
    rw [length_padZeros]
    omega

theorem ofDigits_placeDigits (hb' : base ≤ 16) (h : n < base ^ p) :
    ofDigits base (placeDigits base p n) = n := by
  unfold placeDigits
  split
  · rename_i hp
    rw [hp] at h
    exact (Nat.lt_one_iff.mp h).symm
  · rw [ofDigits_padZeros, ofDigits_digits hb hb']

theorem isDigit_of_mem_placeDigits (hb' : base ≤ 16) {c : Char}
    (hc : c ∈ placeDigits base p n) : isDigit base c = true := by
  unfold placeDigits at hc
  split at hc
  · exact absurd hc List.not_mem_nil
  · exact isDigit_of_mem_padZeros hb hb' hc

end Places

/-! ## Digits told by their number -/

theorem exists_of_mem_digits {base n : Nat} {c : Char} (hb : 1 < base) (h : c ∈ digits base n) :
    ∃ d < base, c = d.digitChar := by
  induction n using Nat.strongRecOn with
  | _ n ih =>
    rw [digits, Nat.toDigits_eq_if hb] at h
    split at h
    · rename_i hn
      exact ⟨n, hn, List.mem_singleton.mp h⟩
    · rename_i hn
      rcases List.mem_append.mp h with h | h
      · exact ih _ (Nat.div_lt_self (by omega) hb) h
      · exact ⟨n % base, Nat.mod_lt _ (by omega), List.mem_singleton.mp h⟩

/-- Equally many digits with the same number have the same values. -/
theorem map_digitValue_eq {base : Nat} {cs ds : List Char}
    (hcs : ∀ c ∈ cs, isDigit base c = true) (hds : ∀ c ∈ ds, isDigit base c = true)
    (hlen : cs.length = ds.length) (h : ofDigits base cs = ofDigits base ds) :
    cs.map digitValue = ds.map digitValue := by
  induction cs using List.reverseRecOn generalizing ds with
  | nil =>
    obtain rfl : ds = [] := List.eq_nil_of_length_eq_zero hlen.symm
    rfl
  | append_singleton cs c ih =>
    cases ds using List.reverseRecOn with
    | nil => simp at hlen
    | append_singleton ds d =>
      obtain ⟨v, hv, hcv⟩ := isDigit_iff.mp (hcs c (by simp))
      obtain ⟨w, hw, hdw⟩ := isDigit_iff.mp (hds d (by simp))
      rw [ofDigits_concat, ofDigits_concat, hcv, hdw, Option.getD_some, Option.getD_some] at h
      have hlast : v = w := by
        have := congrArg (· % base) h
        simpa [Nat.mul_add_mod', Nat.mod_eq_of_lt hv, Nat.mod_eq_of_lt hw] using this
      have hrest : ofDigits base cs = ofDigits base ds :=
        Nat.eq_of_mul_eq_mul_right (by omega : 0 < base) (by omega)
      have := ih (fun c hc => hcs c (by simp [hc])) (fun c hc => hds c (by simp [hc]))
        (by simpa using hlen) hrest
      rw [List.map_append, List.map_append, this, List.map_singleton, List.map_singleton, hcv, hdw,
        hlast]

/-- Equally many digits with the same number are the same, where no two digits that may occur have
one value. -/
theorem eq_of_ofDigits_eq {base : Nat} {alphabet cs ds : List Char}
    (halphabet : ∀ c ∈ alphabet, isDigit base c = true)
    (hinj : ∀ c ∈ alphabet, ∀ d ∈ alphabet, digitValue c = digitValue d → c = d)
    (hcs : ∀ c ∈ cs, c ∈ alphabet) (hds : ∀ c ∈ ds, c ∈ alphabet)
    (hlen : cs.length = ds.length) (h : ofDigits base cs = ofDigits base ds) : cs = ds := by
  have hmap := map_digitValue_eq (fun c hc => halphabet c (hcs c hc))
    (fun c hc => halphabet c (hds c hc)) hlen h
  refine List.ext_getElem hlen fun i hi hj => ?_
  refine hinj _ (hcs _ (List.getElem_mem hi)) _ (hds _ (List.getElem_mem hj)) ?_
  have := congrArg (·[i]?) hmap
  simpa [hi, hj] using this

end StackScript.Numeral
