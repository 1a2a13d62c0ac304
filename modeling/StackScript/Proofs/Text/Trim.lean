import Mathlib
import StackScript.Text.Blank
import StackScript.Text.Case

/-!
# Trimmed texts

* `trim_eq_self_iff`: a text is trimmed if neither its first nor its last character is a blank.
* `trim_append_of_ne_nil`: trimming text that begins with a trimmed word keeps the word.
* `isBlank_toLower`, `trim_map_toLower`: letter case does not matter to trimming.
-/

namespace StackScript.Text

/-- A character of ASCII that shows is no blank. -/
theorem isBlank_of_toNat {c : Char} (h : 33 ≤ c.toNat) (h' : c.toNat ≤ 126) :
    isBlank c = false := by
  simp only [isBlank, blankRanges, List.any_cons, List.any_nil, Bool.or_false, Bool.or_eq_false_iff,
    Bool.and_eq_false_iff, decide_eq_false_iff_not]
  omega

theorem trimRight_append_cons {c : Char} (cs ds : List Char) (h : isBlank c = false) :
    trimRight (cs ++ c :: ds) = cs ++ c :: trimRight ds := by
  induction cs with
  | nil =>
    rw [List.nil_append, trimRight]
    cases trimRight ds <;> simp [h]
  | cons d cs ih =>
    rw [List.cons_append, trimRight, ih]
    cases cs <;> rfl

theorem trimRight_concat_of_blank {c : Char} (cs : List Char) (h : isBlank c = true) :
    trimRight (cs ++ [c]) = trimRight cs := by
  induction cs with
  | nil => simp [trimRight, h]
  | cons d ds ih => simp only [List.cons_append, trimRight, ih]

theorem trimRight_eq_rdropWhile (cs : List Char) : trimRight cs = cs.rdropWhile isBlank := by
  induction cs using List.reverseRecOn with
  | nil => rfl
  | append_singleton cs c ih =>
    by_cases hc : isBlank c = true
    · rw [trimRight_concat_of_blank cs hc, List.rdropWhile_concat_pos _ _ _ hc, ih]
    · rw [trimRight_append_cons cs [] (by simpa using hc), List.rdropWhile_concat_neg _ _ _ hc]
      rfl

@[simp] theorem trimRight_trimRight (cs : List Char) : trimRight (trimRight cs) = trimRight cs := by
  simp only [trimRight_eq_rdropWhile, List.rdropWhile_idempotent]

@[simp] theorem trimLeft_trimLeft (cs : List Char) : trimLeft (trimLeft cs) = trimLeft cs :=
  List.dropWhile_idempotent _ cs

theorem trimLeft_cons_of_not_blank {c : Char} (cs : List Char) (h : isBlank c = false) :
    trimLeft (c :: cs) = c :: cs := by
  simp [trimLeft, h]

/-- The order in which the ends are trimmed does not matter. -/
theorem trimLeft_trimRight (cs : List Char) :
    trimLeft (trimRight cs) = trimRight (trimLeft cs) := by
  induction cs with
  | nil => rfl
  | cons c cs ih =>
    cases hc : isBlank c with
    | true =>
      have e : trimLeft (c :: cs) = trimLeft cs := by simp [trimLeft, hc]
      rw [e, ← ih, trimRight]
      cases trimRight cs with
      | nil => simp [hc]
      | cons d ds => simp [trimLeft, hc]
    | false =>
      rw [trimLeft_cons_of_not_blank cs hc, trimRight]
      cases trimRight cs <;> simp [hc, trimLeft]

@[simp] theorem trim_trim (cs : List Char) : trim (trim cs) = trim cs := by
  simp only [trim, trimLeft_trimRight, trimLeft_trimLeft, trimRight_trimRight]

/-- Blanks at the end do not matter to what is left. -/
@[simp] theorem trim_trimRight (cs : List Char) : trim (trimRight cs) = trim cs := by
  rw [trim, trim, trimLeft_trimRight, trimRight_trimRight]

/-- A blank at the end of a text does not count. -/
theorem trim_concat_of_blank {c : Char} (cs : List Char) (h : isBlank c = true) :
    trim (cs ++ [c]) = trim cs := by
  rw [← trim_trimRight, trimRight_concat_of_blank cs h, trim_trimRight]

theorem mem_of_mem_trim {c : Char} {cs : List Char} (h : c ∈ trim cs) : c ∈ cs := by
  rw [trim, trimRight_eq_rdropWhile] at h
  have hp := List.rdropWhile_prefix isBlank (trimLeft cs)
  exact (List.dropWhile_sublist _).mem (hp.mem h)

theorem trimLeft_eq_self_iff {cs : List Char} :
    trimLeft cs = cs ↔ ∀ c, cs.head? = some c → isBlank c = false := by
  cases cs with
  | nil => simp [trimLeft]
  | cons c cs =>
    refine ⟨fun h d hd => ?_, fun h => trimLeft_cons_of_not_blank cs (h c rfl)⟩
    obtain rfl : c = d := by simpa using hd
    have := List.head?_dropWhile_not isBlank (c :: cs)
    rw [← trimLeft, h] at this
    exact this

theorem trimRight_eq_self_iff {cs : List Char} :
    trimRight cs = cs ↔ ∀ c, cs.getLast? = some c → isBlank c = false := by
  rw [trimRight_eq_rdropWhile, List.rdropWhile_eq_self_iff]
  constructor
  · intro h c hc
    have hne : cs ≠ [] := by rintro rfl; cases hc
    rw [List.getLast?_eq_some_getLast hne, Option.some.injEq] at hc
    simpa [hc] using h hne
  · intro h hne
    simp [h _ (List.getLast?_eq_some_getLast hne)]

/-- A text is trimmed if it has no blank at either end. -/
theorem trim_eq_self_iff {cs : List Char} :
    trim cs = cs ↔ (∀ c, cs.head? = some c → isBlank c = false) ∧
      ∀ c, cs.getLast? = some c → isBlank c = false := by
  rw [← trimLeft_eq_self_iff, ← trimRight_eq_self_iff]
  constructor
  · intro h
    constructor
    · rw [← h, trim, trimLeft_trimRight, trimLeft_trimLeft]
    · rw [← h, trim, trimRight_trimRight]
  · rintro ⟨hl, hr⟩
    rw [trim, hl, hr]

/-- What has no blanks before it keeps its first character, if anything is left of it. -/
theorem head?_trim {cs : List Char} (h : trimLeft cs = cs) (hn : trim cs ≠ []) :
    (trim cs).head? = cs.head? := by
  have hp : trim cs <+: cs := by
    have hr := List.rdropWhile_prefix isBlank cs
    rwa [trim, h, trimRight_eq_rdropWhile]
  obtain ⟨after, e⟩ := hp
  have ha : (trim cs ++ after).head? = (trim cs).head? := List.head?_append_of_ne_nil _ hn
  rw [← ha, e]

/-- Trimming a word with something after it trims only what comes after. -/
theorem trim_append_of_ne_nil {c : Char} {cs : List Char} (ds : List Char) (hn : cs ≠ [])
    (h : trim cs = cs) (hc : isBlank c = false) :
    trim (cs ++ c :: ds) = cs ++ c :: trimRight ds := by
  have hl : trimLeft (cs ++ c :: ds) = cs ++ c :: ds := by
    refine trimLeft_eq_self_iff.mpr fun d hd => (trim_eq_self_iff.mp h).1 d ?_
    rwa [List.head?_append_of_ne_nil _ hn] at hd
  rw [trim, hl, trimRight_append_cons cs ds hc]

/-! ## Letter case -/

/-- A character is its own lower case unless both are letters. -/
theorem toLower_eq_or (c : Char) :
    c.toLower = c ∨
      (65 ≤ c.toNat ∧ c.toNat ≤ 90) ∧ 97 ≤ c.toLower.toNat ∧ c.toLower.toNat ≤ 122 := by
  unfold Char.toLower
  split
  · rename_i h
    right
    have h₁ : 65 ≤ c.toNat := h.1
    have h₂ : c.toNat ≤ 90 := h.2
    have e : (c.val + ('a'.val - 'A'.val)).toNat = c.toNat + 32 := by
      rw [UInt32.toNat_add]
      change (c.toNat + 32) % 2 ^ 32 = _
      omega
    simp only [Char.toNat] at e h₁ h₂ ⊢
    omega
  · exact .inl rfl

theorem isBlank_toLower (c : Char) : isBlank c.toLower = isBlank c := by
  rcases toLower_eq_or c with h | ⟨h, h'⟩
  · rw [h]
  · have hb : ∀ d : Char, 65 ≤ d.toNat → d.toNat ≤ 122 → isBlank d = false := by
      intro d hd hd'
      simp only [isBlank, blankRanges, List.any_cons, List.any_nil, Bool.or_false,
        Bool.or_eq_false_iff, Bool.and_eq_false_iff, decide_eq_false_iff_not]
      omega
    rw [hb c h.1 (by omega), hb _ (by omega) h'.2]

/-- A character that is no letter is the lower case of itself only. -/
theorem toLower_eq_iff {c d : Char} (hd : d.toNat < 65 ∨ 90 < d.toNat ∧ d.toNat < 97) :
    c.toLower = d ↔ c = d := by
  rcases toLower_eq_or c with h | ⟨h, h'⟩
  · rw [h]
  · constructor
    · rintro rfl
      omega
    · rintro rfl
      omega

theorem mem_map_toLower_iff {d : Char} (cs : List Char)
    (hd : d.toNat < 65 ∨ 90 < d.toNat ∧ d.toNat < 97) : d ∈ cs.map Char.toLower ↔ d ∈ cs := by
  simp only [List.mem_map, toLower_eq_iff hd, exists_eq_right]

theorem trim_map_toLower_eq_self_iff {cs : List Char} :
    trim (cs.map Char.toLower) = cs.map Char.toLower ↔ trim cs = cs := by
  simp [trim_eq_self_iff, isBlank_toLower]

end StackScript.Text
