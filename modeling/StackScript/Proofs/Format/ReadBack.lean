import StackScript.Proofs.Format.Integer
import StackScript.Proofs.Format.Pieces
import StackScript.Proofs.Format.SpecText
import StackScript.Proofs.Numeral.Leading

/-!
# Printed integers are read back

A template that is one conversion of an integer prints a text from which the integer is read again,
as far as the text tells its base: in base ten no zero may stand in front, and in the other bases
the alternative form is needed.

* `format?_conversion`: what a template of one conversion prints.
* `IntegerField.leadingInt_text`: what is read from the parts of a printed integer.
* `leadingInt_format`: the number is read back.
-/

namespace StackScript.Format

open Numeral Text

variable {letter : Char} {spec : Spec} {v : Int32}

/-! ## One conversion -/

theorem isLengthModifier_of_not_isAlpha {c : Char} (h : c.isAlpha = false) :
    isLengthModifier c = false := by
  have hletters : ("hljztwLI".toList.all fun c => c.isAlpha) = true := by decide
  by_contra hc
  have hmem : c ∈ "hljztwLI".toList := List.contains_iff_mem.mp (Bool.not_eq_false _ ▸ hc)
  rw [List.all_eq_true.mp hletters c hmem] at h
  cases h

theorem piecesOpen_conversion {cs : List Char} (hcs : ∀ c ∈ cs, c ≠ '%' ∧ c.isAlpha = false)
    (hl : letter.isAlpha = true) (hm : isLengthModifier letter = false) (collected : List Char) :
    piecesOpen collected (cs ++ [letter]) = [.conversion (collected ++ cs) letter] := by
  induction cs generalizing collected with
  | nil =>
    have hp : letter ≠ '%' := by
      rintro rfl
      exact absurd hl (by decide)
    rw [List.nil_append, piecesOpen_letter collected [] hp hm hl, pieces_nil, List.append_nil]
  | cons c cs ih =>
    obtain ⟨⟨hp, ha⟩, hcs⟩ := List.forall_mem_cons.mp hcs
    rw [List.cons_append, piecesOpen_other collected _ hp (isLengthModifier_of_not_isAlpha ha) ha,
      ih hcs, List.append_assoc, List.singleton_append]

/-- A template of one conversion prints its text, cut to the room. -/
theorem format?_conversion (strings : Strings) (args : List Value) {cs : List Char}
    (hcs : ∀ c ∈ cs, c ≠ '%' ∧ c.isAlpha = false) (hl : letter.isAlpha = true)
    (hm : isLengthModifier letter = false)
    (hsize : size ('%' :: (cs ++ [letter])) ≤ maxTemplate) :
    format? strings (String.ofList ('%' :: (cs ++ [letter]))) args =
      .ok (String.ofList
        (cut maxOutput (conversionText strings (argumentOf args 1) cs letter))) := by
  have hahead : Progress.ahead strings args {} ('%' :: (cs ++ [letter])) =
      conversionText strings (argumentOf args 1) cs letter := by
    simp [Progress.ahead, pieces_percent, piecesOpen_conversion hcs hl hm, printed, Piece.text]
  have hrun : (('%' :: (cs ++ [letter])).foldl (Progress.read strings args) {}).finish =
      cut maxOutput (conversionText strings (argumentOf args 1) cs letter) := by
    rw [← hahead]
    exact Progress.finish_foldl_read ('%' :: (cs ++ [letter])) rfl
  unfold format?
  simp only [String.toList_ofList]
  rw [if_neg (Nat.not_lt.mpr hsize), hrun]

/-- What a letter for integers prints of one. -/
theorem conversionText_int {form : IntegerForm}
    (h : Conversion.ofLetter? letter = some (.integer form)) (strings : Strings) (cs : List Char) :
    conversionText strings (.int v) cs letter = renderInteger (.ofChars cs) form v := by
  rw [← getD_render?]
  simp only [render?, Conversion.forArgument?, h]
  rfl

/-- A text of single bytes that does not fill the room was not cut. -/
theorem cut_eq_self_of_lt {n : Nat} {cs : List Char} (hcs : ∀ c ∈ cs, c.toNat < 128)
    (h : size (cut n cs) < n) : cut n cs = cs := by
  induction cs generalizing n with
  | nil => rfl
  | cons c cs ih =>
    obtain ⟨hc, hcs⟩ := List.forall_mem_cons.mp hcs
    have h1 : c.utf8Size = 1 := Char.utf8Size_eq_one_iff.mpr (Nat.le_of_lt_succ hc)
    rw [cut, h1, if_pos (by omega)] at h ⊢
    rw [size_cons, h1] at h
    rw [ih hcs (by omega)]

/-! ## Reading a field -/

/-- The word that a letter prints, with its sign, is the integer. -/
theorem ofInt_numberOf (letter : Char) (v : Int32) :
    Int32.ofInt (if IsSigned letter ∧ v < 0 then -(numberOf letter v : Int)
      else numberOf letter v) = v := by
  have hlt := v.toInt_lt
  have hle := v.le_toInt
  have hneg : v < 0 ↔ v.toInt < 0 := Int32.lt_iff_toInt_lt
  by_cases hsigned : IsSigned letter
  · have hvalue : (if IsSigned letter ∧ v < 0 then -(numberOf letter v : Int)
        else numberOf letter v) = v.toInt := by
      rw [numberOf, if_pos hsigned]
      simp only [hsigned, true_and, hneg]
      split <;> omega
    rw [hvalue, Int32.ofInt_toInt]
  · rw [if_neg fun h => hsigned h.1, numberOf, if_neg hsigned, ← Int32.toInt_inj, Int32.toInt_ofInt,
      Int.toNat_of_nonneg (Int.emod_nonneg _ (by decide))]
    show (v.toInt % (2 ^ 32 : Nat)).bmod (2 ^ 32) = v.toInt
    rw [Int.emod_bmod]
    exact v.toInt_bmod

/-- A blank in the place of the sign is one more blank. -/
theorem exists_sign_of_field {f : IntegerField} (hf : f.Follows letter spec v) :
    ∃ (before : Nat) (sign : Sign),
      List.replicate f.before ' ' ++ f.sign = List.replicate before ' ' ++ sign.chars ∧
        (sign = .minus ↔ IsSigned letter ∧ v < 0) := by
  have hsign := hf.sign
  by_cases hs : IsSigned letter
  · rw [if_neg (not_not.mpr hs)] at hsign
    by_cases hv : v < 0
    · rw [if_pos hv] at hsign
      exact ⟨f.before, .minus, by rw [hsign]; rfl, by simp [hs, hv]⟩
    · rw [if_neg hv] at hsign
      split at hsign
      · exact ⟨f.before, .plus, by rw [hsign]; rfl, by simp [hv]⟩
      · split at hsign
        · refine ⟨f.before + 1, .none, ?_, by simp [hv]⟩
          rw [hsign, List.replicate_succ']
          exact (List.append_nil _).symm
        · exact ⟨f.before, .none, by rw [hsign]; rfl, by simp [hv]⟩
  · rw [if_pos hs] at hsign
    exact ⟨f.before, .none, by rw [hsign]; rfl, by simp [hs]⟩

namespace IntegerField

/-- The number of a field is read, if there are digits after a mark that tells their base. -/
theorem leadingInt_text {f : IntegerField} (hf : f.Follows letter spec v) {mark : Mark}
    (hmark : f.mark = mark.chars)
    (hds : ∀ c ∈ List.replicate f.zeros '0' ++ f.digits, isDigit mark.base c = true)
    (hne : List.replicate f.zeros '0' ++ f.digits ≠ [])
    (hdecimal : mark = .decimal → (List.replicate f.zeros '0' ++ f.digits).head? ≠ some '0')
    (hoctal : mark = .octal → (List.replicate f.zeros '0' ++ f.digits).head? = some '0')
    (hvalue : ofDigits mark.base f.digits = numberOf letter v) :
    leadingInt (String.ofList f.text) = v := by
  obtain ⟨before, sign, hlead, hminus⟩ := exists_sign_of_field hf
  let p := Leading.padded before sign mark (List.replicate f.zeros '0' ++ f.digits) f.after
  have hp : p.IsLongest := Leading.isLongest_padded before f.after hds hne hdecimal hoctal
  have htext : p.text = f.text := by
    rw [text, ← List.append_assoc, hlead, hmark]
    simp [p, Leading.padded, Leading.text, Leading.trimmed, Leading.unsigned]
  have hdigits : ofDigits p.mark.base p.digits = numberOf letter v := by
    show ofDigits mark.base (List.replicate f.zeros '0' ++ f.digits) = _
    rw [ofDigits_append, ofDigits_zeros, Nat.zero_mul, Nat.zero_add, hvalue]
  have hnumber : p.value =
      if IsSigned letter ∧ v < 0 then -(numberOf letter v : Int) else numberOf letter v := by
    rw [Leading.value, hdigits]
    exact if_congr hminus rfl rfl
  have hheld : max (-(maxMagnitude : Int)) (min p.value maxMagnitude) = p.value := by
    have hlt := v.toInt_lt
    have hle := v.le_toInt
    have hbound : numberOf letter v < 2 ^ 32 := by
      unfold numberOf
      split <;> omega
    rw [hnumber, maxMagnitude]
    split <;> omega
  rw [hp.leadingInt_eq (by rw [String.toList_ofList, htext]), hheld, hnumber, ofInt_numberOf]

theorem isDigit_of_mem {f : IntegerField} (hf : f.Follows letter spec v) :
    ∀ c ∈ List.replicate f.zeros '0' ++ f.digits, isDigit (baseOf letter) c = true := by
  intro c hc
  rcases List.mem_append.mp hc with hc | hc
  · rw [List.eq_of_mem_replicate hc]
    exact isDigit_of_mem_alphabet '0' (zero_mem_alphabet letter)
  · exact isDigit_of_mem_alphabet c (hf.digits.1.mem_alphabet c hc)

theorem digits_ne_nil {f : IntegerField} (hf : f.Follows letter spec v) (hv : v ≠ 0) :
    List.replicate f.zeros '0' ++ f.digits ≠ [] := by
  intro hnil
  exact hv (hf.digits.1.of_eq_nil (List.append_eq_nil_iff.mp hnil).2).2

end IntegerField

/-- A specification with which a letter prints what is read back: no zeros in front in base ten, the
alternative form in other bases. -/
def TellsBase (letter : Char) (spec : Spec) : Prop :=
  if letter = 'o' ∨ IsHex letter then spec.alt = true
  else spec.precision = none ∧ (spec.zero = true → spec.left = true)

theorem leadingInt_blanks (n : Nat) : leadingInt (String.ofList (List.replicate n ' ')) = 0 := by
  have hdrop : (List.replicate n ' ').dropWhile isSpace = [] :=
    List.dropWhile_eq_nil_iff.mpr fun c hc => by
      rw [List.eq_of_mem_replicate hc]
      decide
  have hsign : splitSign ((String.ofList (List.replicate n ' ')).toList.dropWhile isSpace) =
      (false, []) := by
    rw [String.toList_ofList, hdrop]
    rfl
  have hbase : splitBase [] = (10, []) := rfl
  rw [leadingInt_of_split hsign hbase]
  rfl

/-- A printed zero is nothing but zeros, or nothing at all. -/
theorem leadingInt_text_zero {f : IntegerField} (hf : f.Follows letter spec 0)
    (h : TellsBase letter spec) : leadingInt (String.ofList f.text) = 0 := by
  have hmark : f.mark = [] := by
    rw [hf.mark]
    simp
  have hzeros : f.digits = List.replicate f.digits.length '0' := by
    refine eq_of_ofDigits_eq isDigit_of_mem_alphabet digitValue_injOn_alphabet
      hf.digits.1.mem_alphabet (fun c hc => ?_) (by simp) ?_
    · rw [List.eq_of_mem_replicate hc]
      exact zero_mem_alphabet letter
    · rw [hf.digits.1.ofDigits_eq, numberOf_zero, ofDigits_zeros]
  have hall : List.replicate f.zeros '0' ++ f.digits =
      List.replicate (f.zeros + f.digits.length) '0' := by
    rw [List.replicate_add, ← hzeros]
  rcases Nat.eq_zero_or_pos (f.zeros + f.digits.length) with hnone | hsome
  · have hdigits : f.digits = [] := List.eq_nil_of_length_eq_zero (by omega)
    have hprecision := (hf.digits.1.of_eq_nil hdigits).1
    have hsign : f.sign = [] := by
      have hs : ¬ IsSigned letter := by
        intro hs
        have hdecimal : ¬ (letter = 'o' ∨ IsHex letter) := by
          rcases hs with rfl | rfl <;> decide
        rw [TellsBase, if_neg hdecimal, hprecision] at h
        cases h.1
      rw [hf.sign, if_pos hs]
    have htext : f.text = List.replicate (f.before + f.after) ' ' := by
      rw [IntegerField.text, hsign, hmark, hdigits, show f.zeros = 0 by omega, List.replicate_add]
      rfl
    rw [htext, leadingInt_blanks]
  · have hoctal : f.mark = Mark.octal.chars := hmark
    refine IntegerField.leadingInt_text hf hoctal ?_ ?_ (fun hm => by cases hm) ?_ ?_
    · rw [hall]
      intro c hc
      rw [List.eq_of_mem_replicate hc]
      decide
    · rw [hall]
      exact fun hnil => absurd (List.replicate_eq_nil_iff _ |>.mp hnil) (by omega)
    · intro _
      obtain ⟨k, hk⟩ := Nat.exists_eq_succ_of_ne_zero (Nat.ne_of_gt hsome)
      rw [hall, hk]
      rfl
    · rw [hzeros, ofDigits_zeros, numberOf_zero]

/-- Digits of base ten with nothing that asks for zeros begin with none. -/
theorem head?_digits_decimal {f : IntegerField} (hf : f.Follows letter spec v)
    (hv : numberOf letter v ≠ 0) (hletter : letter ≠ 'o') (hprecision : spec.precision = none) :
    f.digits.head? ≠ some '0' := by
  intro hhead
  obtain ⟨t, ht⟩ := List.head?_eq_some_iff.mp hhead
  have hwrites := hf.digits.1
  have hvalue : ofDigits (baseOf letter) t = numberOf letter v := by
    rw [← hwrites.ofDigits_eq, ht, ofDigits_zero_cons]
  have hshorter : Writes letter spec v t := by
    refine ⟨fun c hc => hwrites.mem_alphabet c (by simp [ht, hc]), hvalue, by simp [hprecision],
      fun hnil => ?_, fun ho => absurd ho hletter⟩
    rw [hnil, ofDigits_nil] at hvalue
    exact absurd hvalue.symm hv
  have := hf.digits.2 t hshorter
  rw [ht, List.length_cons] at this
  omega

theorem numberOf_ne_zero (hv : v ≠ 0) : numberOf letter v ≠ 0 := by
  intro h
  have hread := ofInt_numberOf letter v
  rw [h] at hread
  refine hv (hread.symm.trans ?_)
  split <;> rfl

/-- What a letter prints is read back, where its base is told. -/
theorem leadingInt_of_follows {f : IntegerField} (hl : letter ∈ digitLetters)
    (hf : f.Follows letter spec v) (h : TellsBase letter spec) :
    leadingInt (String.ofList f.text) = v := by
  by_cases hv : v = 0
  · subst hv
    exact leadingInt_text_zero hf h
  have hds := IntegerField.isDigit_of_mem hf
  have hne := IntegerField.digits_ne_nil hf hv
  have hvalue := hf.digits.1.ofDigits_eq
  by_cases hhex : IsHex letter
  · rw [TellsBase, if_pos (.inr hhex)] at h
    have hbase : baseOf letter = (Mark.hex (letter = 'X')).base := by
      rcases hhex with rfl | rfl <;> rfl
    have hmark : f.mark = (Mark.hex (letter = 'X')).chars := by
      rw [hf.mark, if_pos ⟨h, hhex, hv⟩]
      rcases hhex with rfl | rfl <;> rfl
    rw [hbase] at hds hvalue
    exact IntegerField.leadingInt_text hf hmark hds hne (fun hm => by cases hm)
      (fun hm => by cases hm) hvalue
  have hmark : f.mark = [] := by
    rw [hf.mark, if_neg fun hm => hhex hm.2.1]
  by_cases ho : letter = 'o'
  · subst ho
    rw [TellsBase, if_pos (.inl rfl)] at h
    have hoctal : f.mark = Mark.octal.chars := hmark
    refine IntegerField.leadingInt_text hf hoctal hds hne (fun hm => by cases hm) (fun _ => ?_)
      hvalue
    have hhead := hf.digits.1.head? rfl h
    cases hz : f.zeros with
    | zero => exact hhead
    | succ k => rfl
  · rw [TellsBase, if_neg (not_or.mpr ⟨ho, hhex⟩)] at h
    have hzeros : f.zeros = 0 := by
      cases hleft : spec.left with
      | true => exact (hf.right hleft).2
      | false =>
        refine (hf.left hleft fun hz => ?_).1
        rw [h.2 hz.1] at hleft
        cases hleft
    have hbase : baseOf letter = Mark.decimal.base := by
      rw [baseOf, if_neg ho, if_neg hhex]
      rfl
    rw [hbase] at hds hvalue
    have hdecimal : f.mark = Mark.decimal.chars := hmark
    refine IntegerField.leadingInt_text hf hdecimal hds hne (fun _ => ?_) (fun hm => by cases hm)
      hvalue
    rw [hzeros]
    exact head?_digits_decimal hf (numberOf_ne_zero hv) ho h.1

/-! ## Printing and reading -/

theorem toNat_lt_of_mem_text {f : IntegerField} (hf : f.Follows letter spec v) :
    ∀ c ∈ f.text, c.toNat < 128 := by
  have hsign : ∀ c ∈ f.sign, c.toNat < 128 := by
    have hone : f.sign = [] ∨ f.sign = ['-'] ∨ f.sign = ['+'] ∨ f.sign = [' '] := by
      rw [hf.sign]
      split_ifs <;> simp
    rcases hone with h | h | h | h <;> rw [h] <;> simp
  have hmark : ∀ c ∈ f.mark, c.toNat < 128 := by
    rw [hf.mark]
    split
    · rename_i h
      rcases h.2.1 with rfl | rfl <;> simp
    · simp
  have hdigits : ∀ c ∈ List.replicate f.zeros '0' ++ f.digits, c.toNat < 128 := by
    intro c hc
    have := toNat_of_isDigit (baseOf_le letter) (IntegerField.isDigit_of_mem hf c hc)
    omega
  have hblank (n : Nat) : ∀ c ∈ List.replicate n ' ', c.toNat < 128 := by
    intro c hc
    rw [List.eq_of_mem_replicate hc]
    decide
  intro c hc
  simp only [IntegerField.text, List.mem_append] at hc hdigits
  rcases hc with hc | hc | hc | hc | hc | hc
  · exact hblank _ c hc
  · exact hsign c hc
  · exact hmark c hc
  · exact hdigits c (.inl hc)
  · exact hdigits c (.inr hc)
  · exact hblank _ c hc

/-- What stands between the percent sign and the letter ends no conversion. -/
theorem SpecText.of_mem_chars {t : SpecText} (ht : t.IsValid) :
    ∀ c ∈ t.chars, c ≠ '%' ∧ c.isAlpha = false := by
  have hdigit (c : Char) (h : isDigit 10 c = true) : c ≠ '%' ∧ c.isAlpha = false := by
    have hc := toNat_of_isDigit_ten h
    constructor
    · rintro rfl
      exact absurd hc.1 (by decide)
    · rw [← Char.ofNat_toNat c]
      obtain ⟨h₁, h₂⟩ := hc
      generalize c.toNat = n at h₁ h₂
      interval_cases n <;> decide
  have hflag (c : Char) (h : c ∈ flagChars) : c ≠ '%' ∧ c.isAlpha = false := by
    have : c = '-' ∨ c = '+' ∨ c = ' ' ∨ c = '#' ∨ c = '0' := by
      simpa [flagChars] using h
    rcases this with rfl | rfl | rfl | rfl | rfl <;> decide
  intro c hc
  rcases List.mem_append.mp hc with hc | hc
  · exact hflag c (ht.flags c hc)
  rcases List.mem_append.mp hc with hc | hc
  · exact hdigit c (ht.width c hc)
  cases hp : t.precision with
  | none => simp [hp] at hc
  | some ds =>
    rw [hp, Option.map_some, Option.getD_some] at hc
    rcases List.mem_cons.mp hc with rfl | hc
    · decide
    · exact hdigit c (ht.precision ds hp c hc)

/-- A written specification tells the base, if it has the flags for it. -/
theorem SpecText.tellsBase {t : SpecText} (ht : t.IsValid)
    (h : letter ∈ "xXo".toList ∧ '#' ∈ t.flags ∨
      letter ∈ "diu".toList ∧ t.precision = none ∧ ('0' ∈ t.flags → '-' ∈ t.flags)) :
    letter ∈ digitLetters ∧ TellsBase letter (.ofChars t.chars) := by
  rw [ofChars_chars ht]
  rcases h with ⟨hl, halt⟩ | ⟨hl, hprecision, hzero⟩
  · have hletter : letter = 'x' ∨ letter = 'X' ∨ letter = 'o' := by simpa using hl
    rcases hletter with rfl | rfl | rfl <;>
      exact ⟨by decide, by simpa [TellsBase, IsHex] using halt⟩
  · have hletter : letter = 'd' ∨ letter = 'i' ∨ letter = 'u' := by simpa using hl
    rcases hletter with rfl | rfl | rfl <;>
      exact ⟨by decide, by simpa [TellsBase, IsHex, hprecision] using hzero⟩

/-- An integer printed by a template of one conversion, and not cut, is read back. -/
theorem leadingInt_format (strings : Strings) (v : Int32) (t : SpecText) (ht : t.IsValid)
    (hsize : size t.chars ≤ 1000) (letter : Char)
    (h : letter ∈ "xXo".toList ∧ '#' ∈ t.flags ∨
      letter ∈ "diu".toList ∧ t.precision = none ∧ ('0' ∈ t.flags → '-' ∈ t.flags))
    (hshort : size (format strings (String.ofList ('%' :: (t.chars ++ [letter]))) [.int v]).toList <
      maxOutput) :
    leadingInt (format strings (String.ofList ('%' :: (t.chars ++ [letter]))) [.int v]) = v := by
  obtain ⟨hl, htells⟩ := t.tellsBase ht h
  obtain ⟨form, hform⟩ := exists_printsAs hl
  have hf := IntegerField.follows_ofForm hform (.ofChars t.chars) v
  have hletter : letter.isAlpha = true ∧ isLengthModifier letter = false ∧ letter.utf8Size = 1 := by
    have : letter = 'd' ∨ letter = 'i' ∨ letter = 'u' ∨ letter = 'o' ∨ letter = 'x' ∨
        letter = 'X' := by
      simpa [digitLetters] using hl
    rcases this with rfl | rfl | rfl | rfl | rfl | rfl <;> decide
  have htemplate : size ('%' :: (t.chars ++ [letter])) ≤ maxTemplate := by
    have hpercent : '%'.utf8Size = 1 := rfl
    simp only [size_cons, size_append, size_nil, hpercent, hletter.2.2, maxTemplate]
    omega
  have hformat : format strings (String.ofList ('%' :: (t.chars ++ [letter]))) [.int v] =
      String.ofList (cut maxOutput (IntegerField.ofForm form (.ofChars t.chars) v).text) := by
    have hrun := format?_conversion strings [.int v] (t.of_mem_chars ht) hletter.1 hletter.2.1
      htemplate
    have harg : argumentOf [.int v] 1 = .int v := rfl
    rw [harg, conversionText_int hform.ofLetter?_eq, hform.renderInteger_eq,
      ← IntegerField.text_ofForm] at hrun
    rw [format, hrun]
  rw [hformat, String.toList_ofList] at hshort
  rw [hformat, cut_eq_self_of_lt (toNat_lt_of_mem_text hf) hshort]
  exact leadingInt_of_follows hl hf htells

/-- `-1` with the flags `#` and `0` in a field of 12, in base sixteen. -/
theorem leadingInt_format_hex :
    let t : SpecText := ⟨['#', '0'], ['1', '2'], none⟩
    t.IsValid ∧ size t.chars ≤ 1000 ∧ 'X' ∈ "xXo".toList ∧ '#' ∈ t.flags ∧
      format (fun _ => none) "%#012X" [.int (-1)] = "0X00FFFFFFFF" ∧
        leadingInt (format (fun _ => none) "%#012X" [.int (-1)]) = -1 := by
  intro t
  have ht : t.IsValid :=
    { flags := by simp [t, flagChars]
      width := List.all_eq_true.mp (by decide)
      head? := by decide
      precision := by simp [t] }
  have htext : format (fun _ => none) "%#012X" [.int (-1)] = "0X00FFFFFFFF" := by decide +kernel
  have hread := leadingInt_format (fun _ => none) (-1) t ht (by decide) 'X'
    (.inl ⟨by decide, by simp [t]⟩)
    (show size (format (fun _ => none) "%#012X" [.int (-1)]).toList < maxOutput by
      rw [htext]
      decide)
  exact ⟨ht, by decide, by decide, by simp [t], htext, hread⟩

end StackScript.Format
