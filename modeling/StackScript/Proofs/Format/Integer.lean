import StackScript.Format.Conversion
import StackScript.Proofs.Numeral.Digits

/-!
# How an integer is printed

The letters `d`, `i`, `u`, `o`, `x` and `X` print an integer as digits, in a field with blanks, a
sign and a mark of the base.

* `Writes` says which digits may stand for an integer, `IsShortest` that there are no fewer; the
  shortest digits are unique (`IsShortest.eq`), and they are what a form prints
  (`PrintsAs.isShortest_digitsIn`).
* `IntegerField` has the parts of what is printed, and `IntegerField.Follows` says what flags, width
  and precision ask of them.
* `renderInteger_follows`: what is printed has parts that follow, and no others do.
-/

namespace StackScript.Format

open Numeral Text

/-! ## Letters -/

/-- The letters that print an integer as digits. -/
def digitLetters : List Char := "diuoxX".toList

/-- Whether a letter prints the sign of an integer. -/
def IsSigned (letter : Char) : Prop := letter = 'd' ∨ letter = 'i'

/-- Whether a letter prints in base sixteen. -/
def IsHex (letter : Char) : Prop := letter = 'x' ∨ letter = 'X'

instance (letter : Char) : Decidable (IsSigned letter) := inferInstanceAs (Decidable (_ ∨ _))

instance (letter : Char) : Decidable (IsHex letter) := inferInstanceAs (Decidable (_ ∨ _))

/-- The base of the digits that a letter prints. -/
def baseOf (letter : Char) : Nat :=
  if letter = 'o' then 8 else if IsHex letter then 16 else 10

/-- A digit in the case that a letter asks for. -/
def digitOf (letter : Char) (d : Nat) : Char :=
  if letter = 'X' then d.digitChar.toUpper else d.digitChar

/-- The digits that a letter may print. -/
def alphabet (letter : Char) : List Char := (List.range (baseOf letter)).map (digitOf letter)

example : alphabet 'X' = "0123456789ABCDEF".toList := by decide

/-- The number that a letter prints: the magnitude, or the integer as a word of 32 bits. -/
def numberOf (letter : Char) (v : Int32) : Nat :=
  if IsSigned letter then v.toInt.natAbs else (v.toInt % 2 ^ 32).toNat

/-! ## Digits -/

/-- Digits that may stand for an integer: they write its number, and are as many as the precision
asks for; there may be none for a zero of precision 0; octal digits of the alternative form begin
with a zero. -/
structure Writes (letter : Char) (spec : Spec) (v : Int32) (ds : List Char) : Prop where
  mem_alphabet : ∀ c ∈ ds, c ∈ alphabet letter
  ofDigits_eq : ofDigits (baseOf letter) ds = numberOf letter v
  precision_le : spec.precision.getD 0 ≤ ds.length
  of_eq_nil : ds = [] → spec.precision = some 0 ∧ v = 0
  head? : letter = 'o' → spec.alt = true → ds.head? = some '0'

/-- The fewest digits that may stand for an integer. -/
def IsShortest (letter : Char) (spec : Spec) (v : Int32) (ds : List Char) : Prop :=
  Writes letter spec v ds ∧ ∀ es, Writes letter spec v es → ds.length ≤ es.length

variable {letter : Char} {spec : Spec} {v : Int32} {form : IntegerForm}

theorem one_lt_baseOf (letter : Char) : 1 < baseOf letter := by
  unfold baseOf
  split
  · decide
  · split <;> decide

theorem baseOf_le (letter : Char) : baseOf letter ≤ 16 := by
  unfold baseOf
  split
  · decide
  · split <;> decide

theorem digitValue_digitOf (letter : Char) {d : Nat} (h : d < 16) :
    digitValue (digitOf letter d) = some d := by
  have hd := digitValue_digitChar h
  unfold digitOf
  split
  · rw [digitValue_toUpper (isDigit_iff.mpr ⟨d, h, hd⟩), hd]
  · exact hd

theorem mem_alphabet_iff {c : Char} :
    c ∈ alphabet letter ↔ ∃ d < baseOf letter, c = digitOf letter d := by
  simp only [alphabet, List.mem_map, List.mem_range, eq_comm]

theorem digitOf_zero (letter : Char) : digitOf letter 0 = '0' := by
  unfold digitOf
  split <;> decide

theorem zero_mem_alphabet (letter : Char) : '0' ∈ alphabet letter :=
  mem_alphabet_iff.mpr ⟨0, Nat.zero_lt_of_lt (one_lt_baseOf letter), (digitOf_zero letter).symm⟩

theorem isDigit_of_mem_alphabet : ∀ c ∈ alphabet letter, isDigit (baseOf letter) c = true := by
  intro c hc
  obtain ⟨d, hd, rfl⟩ := mem_alphabet_iff.mp hc
  have hvalue := digitValue_digitOf letter (Nat.lt_of_lt_of_le hd (baseOf_le letter))
  exact isDigit_iff.mpr ⟨d, hd, hvalue⟩

theorem digitValue_injOn_alphabet :
    ∀ c ∈ alphabet letter, ∀ d ∈ alphabet letter, digitValue c = digitValue d → c = d := by
  intro c hc d hd h
  obtain ⟨m, hm, rfl⟩ := mem_alphabet_iff.mp hc
  obtain ⟨n, hn, rfl⟩ := mem_alphabet_iff.mp hd
  have hle := baseOf_le letter
  rw [digitValue_digitOf letter (by omega), digitValue_digitOf letter (by omega)] at h
  rw [Option.some.inj h]

/-- The shortest digits are unique. -/
theorem IsShortest.eq {ds es : List Char} (hds : IsShortest letter spec v ds)
    (hes : IsShortest letter spec v es) : ds = es := by
  have hlen : ds.length = es.length := Nat.le_antisymm (hds.2 es hes.1) (hes.2 ds hds.1)
  exact eq_of_ofDigits_eq isDigit_of_mem_alphabet digitValue_injOn_alphabet
    hds.1.mem_alphabet hes.1.mem_alphabet hlen (hds.1.ofDigits_eq.trans hes.1.ofDigits_eq.symm)

/-! ## The form of a letter -/

/-- The digits of a number, one at the least, in the case that a letter asks for. -/
def lettered (letter : Char) (n : Nat) : List Char :=
  if letter = 'X' then upperDigits (digits (baseOf letter) n) else digits (baseOf letter) n

/-- A letter prints in a form. -/
structure PrintsAs (letter : Char) (form : IntegerForm) : Prop where
  ofLetter?_eq : Conversion.ofLetter? letter = some (.integer form)
  renderInteger_eq : ∀ spec v, renderInteger spec form v = renderDigits spec form v
  signOf_eq : ∀ spec v, form.signOf spec v = if IsSigned letter then spec.sign (v < 0) else []
  altLead_eq : ∀ v, form.altLead v = if IsHex letter ∧ v ≠ 0 then ['0', letter] else []
  altDigits_eq : ∀ ds, form.altDigits ds =
    if letter = 'o' ∧ ds.head? ≠ some '0' then '0' :: ds else ds
  plainDigits_eq : ∀ v, form.plainDigits v = lettered letter (numberOf letter v)

/-- An integer as a word is the integer up to a multiple of `2 ^ 32`. -/
theorem toNat_toUInt32 (v : Int32) : v.toUInt32.toNat = (v.toInt % 2 ^ 32).toNat := by
  have h : v.toInt = (v.toUInt32.toNat : Int).bmod (2 ^ 32) := BitVec.toInt_eq_toNat_bmod v.toBitVec
  have hlt := v.toUInt32.toNat_lt
  have hmod : v.toInt % (2 ^ 32 : Nat) = v.toUInt32.toNat % (2 ^ 32 : Nat) := by
    rw [h, Int.bmod_emod]
  omega

theorem printsAs_signed (h : IsSigned letter) : PrintsAs letter .signed := by
  rcases h with rfl | rfl <;>
  exact
    { ofLetter?_eq := rfl
      renderInteger_eq := fun _ _ => rfl
      signOf_eq := fun _ _ => rfl
      altLead_eq := fun _ => rfl
      altDigits_eq := fun _ => rfl
      plainDigits_eq := fun _ => rfl }

theorem printsAs_unsigned : PrintsAs 'u' .unsigned where
  ofLetter?_eq := rfl
  renderInteger_eq _ _ := rfl
  signOf_eq _ _ := rfl
  altLead_eq _ := rfl
  altDigits_eq _ := rfl
  plainDigits_eq v := congrArg (digits 10) (toNat_toUInt32 v)

theorem printsAs_octal : PrintsAs 'o' .octal where
  ofLetter?_eq := rfl
  renderInteger_eq _ _ := rfl
  signOf_eq _ _ := rfl
  altLead_eq _ := rfl
  altDigits_eq ds := by simp [IntegerForm.altDigits]
  plainDigits_eq v := congrArg (digits 8) (toNat_toUInt32 v)

theorem printsAs_hex (capital : Bool) :
    PrintsAs (if capital then 'X' else 'x') (.hex capital) := by
  cases capital with
  | false =>
    exact
      { ofLetter?_eq := rfl
        renderInteger_eq := fun _ _ => rfl
        signOf_eq := fun _ _ => rfl
        altLead_eq := fun v => by simp [IntegerForm.altLead, IsHex]
        altDigits_eq := fun _ => rfl
        plainDigits_eq := fun v => congrArg (digits 16) (toNat_toUInt32 v) }
  | true =>
    exact
      { ofLetter?_eq := rfl
        renderInteger_eq := fun _ _ => rfl
        signOf_eq := fun _ _ => rfl
        altLead_eq := fun v => by simp [IntegerForm.altLead, IsHex]
        altDigits_eq := fun _ => rfl
        plainDigits_eq := fun v => congrArg (upperDigits <| digits 16 ·) (toNat_toUInt32 v) }

theorem exists_printsAs (hl : letter ∈ digitLetters) : ∃ form, PrintsAs letter form := by
  have hcases : IsSigned letter ∨ letter = 'u' ∨ letter = 'o' ∨ letter = 'x' ∨ letter = 'X' := by
    simpa [digitLetters, IsSigned, or_assoc] using hl
  rcases hcases with h | rfl | rfl | rfl | rfl
  · exact ⟨.signed, printsAs_signed h⟩
  · exact ⟨.unsigned, printsAs_unsigned⟩
  · exact ⟨.octal, printsAs_octal⟩
  · exact ⟨.hex false, printsAs_hex false⟩
  · exact ⟨.hex true, printsAs_hex true⟩

/-! ## The digits that are printed -/

theorem length_lettered (letter : Char) (n : Nat) :
    (lettered letter n).length = (digits (baseOf letter) n).length := by
  unfold lettered upperDigits
  split
  · exact List.length_map ..
  · rfl

theorem mem_alphabet_of_mem_lettered {n : Nat} {c : Char} (h : c ∈ lettered letter n) :
    c ∈ alphabet letter := by
  unfold lettered at h
  split at h
  · rename_i hX
    obtain ⟨c', hc, rfl⟩ := List.mem_map.mp h
    obtain ⟨d, hd, rfl⟩ := exists_of_mem_digits (one_lt_baseOf letter) hc
    exact mem_alphabet_iff.mpr ⟨d, hd, by rw [digitOf, if_pos hX]⟩
  · rename_i hX
    obtain ⟨d, hd, rfl⟩ := exists_of_mem_digits (one_lt_baseOf letter) h
    exact mem_alphabet_iff.mpr ⟨d, hd, by rw [digitOf, if_neg hX]⟩

theorem map_digitValue_lettered (letter : Char) (n : Nat) :
    (lettered letter n).map digitValue = (digits (baseOf letter) n).map digitValue := by
  unfold lettered
  split
  · rw [upperDigits, List.map_map]
    refine List.map_congr_left fun c hc => digitValue_toUpper ?_
    obtain ⟨d, hd, rfl⟩ := exists_of_mem_digits (one_lt_baseOf letter) hc
    have hd' : d < 16 := Nat.lt_of_lt_of_le hd (baseOf_le letter)
    exact isDigit_iff.mpr ⟨d, hd', digitValue_digitChar hd'⟩
  · rfl

theorem ofDigits_lettered (letter : Char) (n : Nat) :
    ofDigits (baseOf letter) (lettered letter n) = n := by
  rw [ofDigits_congr (map_digitValue_lettered letter n),
    ofDigits_digits (one_lt_baseOf letter) (baseOf_le letter)]

theorem lettered_ne_nil (letter : Char) (n : Nat) : lettered letter n ≠ [] := by
  rw [ne_eq, ← List.length_eq_zero_iff, length_lettered, List.length_eq_zero_iff]
  exact Nat.toDigits_ne_nil

theorem lettered_zero (letter : Char) : lettered letter 0 = ['0'] := by
  have h : digits (baseOf letter) 0 = ['0'] := by
    rw [digits, Nat.toDigits_eq_if (one_lt_baseOf letter),
      if_pos (Nat.zero_lt_of_lt (one_lt_baseOf letter))]
    rfl
  unfold lettered
  rw [h]
  split <;> rfl

theorem length_lettered_le {es : List Char} (hne : es ≠ []) (h : ∀ c ∈ es, c ∈ alphabet letter) :
    (lettered letter (ofDigits (baseOf letter) es)).length ≤ es.length := by
  rw [length_lettered]
  exact length_digits_le (one_lt_baseOf letter) hne fun c hc => isDigit_of_mem_alphabet c (h c hc)

theorem numberOf_zero (letter : Char) : numberOf letter 0 = 0 := by
  unfold numberOf
  split <;> rfl

/-- What the alternative form asks for besides. -/
theorem writes_iff {ds : List Char} :
    Writes letter spec v ds ↔ Writes letter { spec with alt := false } v ds ∧
      (letter = 'o' → spec.alt = true → ds.head? = some '0') :=
  ⟨fun h => ⟨⟨h.1, h.2, h.3, h.4, fun _ ht => by cases ht⟩, h.5⟩,
    fun ⟨h, ho⟩ => ⟨h.1, h.2, h.3, h.4, ho⟩⟩

/-- The digits that a form prints, without the zeros that fill the field. -/
def IntegerForm.digitsIn (form : IntegerForm) (spec : Spec) (v : Int32) : List Char :=
  if spec.alt then form.altDigits (form.preciseDigits spec.precision v)
  else form.preciseDigits spec.precision v

namespace PrintsAs

theorem preciseDigits_eq (h : PrintsAs letter form) (precision : Option Nat) (v : Int32) :
    form.preciseDigits precision v =
      if precision = some 0 ∧ v = 0 then []
      else padZeros (precision.getD 0) (lettered letter (numberOf letter v)) := by
  unfold IntegerForm.preciseDigits
  cases precision with
  | none => simp [h.plainDigits_eq, padZeros]
  | some p => simp [h.plainDigits_eq]

/-- Where the alternative form has no say, the shortest digits are printed. -/
theorem isShortest_preciseDigits (h : PrintsAs letter form) (spec : Spec) (v : Int32) :
    IsShortest letter { spec with alt := false } v (form.preciseDigits spec.precision v) := by
  rw [h.preciseDigits_eq]
  split
  · rename_i hzero
    obtain ⟨hp, rfl⟩ := hzero
    refine ⟨⟨by simp, ?_, by simp [hp], fun _ => ⟨hp, rfl⟩, fun _ ht => by cases ht⟩, by simp⟩
    rw [ofDigits_nil, numberOf_zero]
  · rename_i hnonzero
    refine ⟨⟨fun c hc => ?_, ?_, ?_, fun hnil => ?_, fun _ ht => by cases ht⟩, fun es hes => ?_⟩
    · rcases List.mem_append.mp hc with hc | hc
      · rw [List.eq_of_mem_replicate hc]
        exact zero_mem_alphabet letter
      · exact mem_alphabet_of_mem_lettered hc
    · rw [ofDigits_padZeros, ofDigits_lettered]
    · rw [length_padZeros]
      exact Nat.le_max_left ..
    · exact absurd (List.append_eq_nil_iff.mp hnil).2 (lettered_ne_nil letter _)
    · rw [length_padZeros, ← hes.ofDigits_eq]
      exact Nat.max_le.mpr ⟨hes.precision_le,
        length_lettered_le (fun hnil => hnonzero (hes.of_eq_nil hnil)) hes.mem_alphabet⟩

/-- Octal digits without a zero in front are none or have nothing in front. -/
theorem preciseDigits_of_head?_ne (h : PrintsAs letter form) {precision : Option Nat}
    (hhead : (form.preciseDigits precision v).head? ≠ some '0') :
    form.preciseDigits precision v = [] ∨
      form.preciseDigits precision v = lettered letter (numberOf letter v) ∧
        0 < numberOf letter v := by
  rw [h.preciseDigits_eq] at hhead ⊢
  split
  · exact .inl rfl
  · rename_i hnonzero
    rw [if_neg hnonzero, padZeros] at hhead
    refine .inr ?_
    have hpad : precision.getD 0 - (lettered letter (numberOf letter v)).length = 0 := by
      by_contra hpad
      obtain ⟨k, hk⟩ := Nat.exists_eq_succ_of_ne_zero hpad
      exact hhead (by rw [hk]; rfl)
    rw [padZeros, hpad]
    rw [hpad] at hhead
    refine ⟨rfl, Nat.pos_of_ne_zero fun hn => hhead ?_⟩
    rw [hn, lettered_zero]
    rfl

/-- The shortest digits are printed. -/
theorem isShortest_digitsIn (h : PrintsAs letter form) (spec : Spec) (v : Int32) :
    IsShortest letter spec v (form.digitsIn spec v) := by
  obtain ⟨hwrites, hleast⟩ := h.isShortest_preciseDigits spec v
  by_cases hext : spec.alt = true ∧ letter = 'o' ∧
      (form.preciseDigits spec.precision v).head? ≠ some '0'
  · obtain ⟨halt, hletter, hhead⟩ := hext
    have hds : form.digitsIn spec v = '0' :: form.preciseDigits spec.precision v := by
      rw [IntegerForm.digitsIn, if_pos halt, h.altDigits_eq, if_pos ⟨hletter, hhead⟩]
    rw [hds]
    refine ⟨⟨?_, ?_, ?_, fun hnil => (by cases hnil), fun _ _ => rfl⟩, fun es hes => ?_⟩
    · exact List.forall_mem_cons.mpr ⟨zero_mem_alphabet letter, hwrites.mem_alphabet⟩
    · rw [ofDigits_zero_cons, hwrites.ofDigits_eq]
    · exact Nat.le_succ_of_le hwrites.precision_le
    · obtain ⟨t, rfl⟩ := List.head?_eq_some_iff.mp (hes.head? hletter halt)
      rcases h.preciseDigits_of_head?_ne hhead with hnil | ⟨hplain, hpos⟩
      · rw [hnil]
        exact Nat.succ_le_succ (Nat.zero_le _)
      · have ht : ofDigits (baseOf letter) t = numberOf letter v := by
          rw [← hes.ofDigits_eq, ofDigits_zero_cons]
        rw [hplain, ← ht]
        refine Nat.succ_le_succ (length_lettered_le ?_ fun c hc =>
          hes.mem_alphabet c (List.mem_cons_of_mem _ hc))
        rintro rfl
        rw [← ht] at hpos
        exact absurd hpos (by simp)
  · have hds : form.digitsIn spec v = form.preciseDigits spec.precision v := by
      rw [IntegerForm.digitsIn, h.altDigits_eq]
      split
      · rename_i halt
        exact if_neg fun hhead => hext ⟨halt, hhead⟩
      · rfl
    rw [hds]
    refine ⟨writes_iff.mpr ⟨hwrites, fun hletter halt => ?_⟩, fun es hes =>
      hleast es (writes_iff.mp hes).1⟩
    by_contra hhead
    exact hext ⟨halt, hletter, hhead⟩

end PrintsAs

/-! ## Fields -/

/-- The parts of a printed integer. -/
structure IntegerField where
  /-- The number of blanks on the left. -/
  before : Nat
  sign : List Char
  /-- The mark of the base. -/
  mark : List Char
  /-- The number of zeros that fill the field. -/
  zeros : Nat
  digits : List Char
  /-- The number of blanks on the right. -/
  after : Nat

namespace IntegerField

/-- What is printed. -/
def text (f : IntegerField) : List Char :=
  List.replicate f.before ' ' ++ (f.sign ++ (f.mark ++ (List.replicate f.zeros '0' ++
    (f.digits ++ List.replicate f.after ' '))))

/-- What is printed without filling. -/
def content (f : IntegerField) : List Char := f.sign ++ f.mark ++ f.digits

/-- The parts are what flags, width and precision ask for. -/
structure Follows (letter : Char) (spec : Spec) (v : Int32) (f : IntegerField) : Prop where
  sign : f.sign =
    if ¬ IsSigned letter then []
    else if v < 0 then ['-']
    else if spec.plus then ['+']
    else if spec.space then [' '] else []
  mark : f.mark = if spec.alt ∧ IsHex letter ∧ v ≠ 0 then ['0', letter] else []
  digits : IsShortest letter spec v f.digits
  size : size f.text = max (spec.width.getD 0) (size f.content)
  right : spec.left = true → f.before = 0 ∧ f.zeros = 0
  zeros : spec.left = false → spec.zero = true ∧ spec.precision = none →
    f.before = 0 ∧ f.after = 0
  left : spec.left = false → ¬ (spec.zero = true ∧ spec.precision = none) →
    f.zeros = 0 ∧ f.after = 0

theorem size_text (f : IntegerField) :
    Text.size f.text = f.before + f.zeros + f.after + Text.size f.content := by
  have hblank (n : Nat) : Text.size (List.replicate n ' ') = n := size_replicate rfl n
  have hzero (n : Nat) : Text.size (List.replicate n '0') = n := size_replicate rfl n
  simp only [text, content, size_append, hblank, hzero]
  omega

/-- The parts are unique: the digits are the shortest, and only one side is filled. -/
theorem Follows.eq {f g : IntegerField} (hf : f.Follows letter spec v)
    (hg : g.Follows letter spec v) : f = g := by
  have hsign : f.sign = g.sign := hf.sign.trans hg.sign.symm
  have hmark : f.mark = g.mark := hf.mark.trans hg.mark.symm
  have hdigits : f.digits = g.digits := hf.digits.eq hg.digits
  have hsize := hf.size
  have hsize' := hg.size
  rw [size_text] at hsize hsize'
  have hcontent : f.content = g.content := by rw [content, hsign, hmark, hdigits, content]
  rw [hcontent] at hsize
  suffices h : f.before = g.before ∧ f.zeros = g.zeros ∧ f.after = g.after by
    cases f
    cases g
    simp_all
  cases hleft : spec.left with
  | true =>
    have := hf.right hleft
    have := hg.right hleft
    omega
  | false =>
    by_cases hzeros : spec.zero = true ∧ spec.precision = none
    · have := hf.zeros hleft hzeros
      have := hg.zeros hleft hzeros
      omega
    · have := hf.left hleft hzeros
      have := hg.left hleft hzeros
      omega

/-- The parts of an integer as a form prints it. -/
def ofForm (form : IntegerForm) (spec : Spec) (v : Int32) : IntegerField :=
  let sign := form.signOf spec v
  let mark := if spec.alt then form.altLead v else []
  let digits := form.digitsIn spec v
  let fill := spec.width.getD 0 - Text.size (sign ++ mark ++ digits)
  if spec.left then ⟨0, sign, mark, 0, digits, fill⟩
  else if spec.zero && spec.precision.isNone then ⟨0, sign, mark, fill, digits, 0⟩
  else ⟨fill, sign, mark, 0, digits, 0⟩

theorem text_ofForm (form : IntegerForm) (spec : Spec) (v : Int32) :
    (ofForm form spec v).text = renderDigits spec form v := by
  have hrender : renderDigits spec form v =
      spec.pad (form.signOf spec v ++ if spec.alt then form.altLead v else [])
        (form.digitsIn spec v) spec.precision.isNone := by
    unfold renderDigits IntegerForm.digitsIn
    cases spec.alt <;> simp
  rw [hrender]
  unfold ofForm Spec.pad text
  dsimp only
  rw [size_append]
  split
  · simp
  · split <;> simp

theorem follows_ofForm (h : PrintsAs letter form) (spec : Spec) (v : Int32) :
    (ofForm form spec v).Follows letter spec v := by
  have hsign : form.signOf spec v = if ¬ IsSigned letter then [] else if v < 0 then ['-']
      else if spec.plus then ['+'] else if spec.space then [' '] else [] := by
    rw [h.signOf_eq, ite_not]
    simp only [Spec.sign, decide_eq_true_eq]
  have hmark : (if spec.alt then form.altLead v else []) =
      if spec.alt ∧ IsHex letter ∧ v ≠ 0 then ['0', letter] else [] := by
    rw [h.altLead_eq, ite_and (spec.alt = true)]
  unfold ofForm
  dsimp only
  rw [hmark]
  set content := form.signOf spec v ++
    (if spec.alt ∧ IsHex letter ∧ v ≠ 0 then ['0', letter] else []) ++ form.digitsIn spec v
  -- What is left of the width goes to one place.
  have hparts (before zeros after : Nat)
      (hfill : before + zeros + after = spec.width.getD 0 - Text.size content)
      (hright : spec.left = true → before = 0 ∧ zeros = 0)
      (hzeros : spec.left = false → spec.zero = true ∧ spec.precision = none →
        before = 0 ∧ after = 0)
      (hleft : spec.left = false → ¬ (spec.zero = true ∧ spec.precision = none) →
        zeros = 0 ∧ after = 0) :
      Follows letter spec v ⟨before, form.signOf spec v,
        if spec.alt ∧ IsHex letter ∧ v ≠ 0 then ['0', letter] else [], zeros,
        form.digitsIn spec v, after⟩ :=
    { sign := hsign
      mark := rfl
      digits := h.isShortest_digitsIn spec v
      size := by
        rw [size_text]
        show before + zeros + after + Text.size content = max _ (Text.size content)
        omega
      right := hright
      zeros := hzeros
      left := hleft }
  cases hside : spec.left with
  | true =>
    exact hparts 0 0 _ (by omega) (fun _ => ⟨rfl, rfl⟩) (by simp [hside]) (by simp [hside])
  | false =>
    by_cases hz : spec.zero = true ∧ spec.precision = none
    · rw [if_neg Bool.false_ne_true, if_pos (by simpa using hz)]
      exact hparts 0 _ 0 (by omega) (by simp [hside]) (fun _ _ => ⟨rfl, rfl⟩)
        (fun _ hno => absurd hz hno)
    · rw [if_neg Bool.false_ne_true, if_neg (by simpa using hz)]
      exact hparts _ 0 0 (by omega) (by simp [hside]) (fun _ hyes => absurd hyes hz)
        (fun _ _ => ⟨rfl, rfl⟩)

end IntegerField

/-- An integer is printed in parts that are what flags, width and precision ask for, and no other
parts are. -/
theorem renderInteger_follows (letter : Char) (hl : letter ∈ digitLetters) (spec : Spec)
    (v : Int32) :
    ∃ form, Conversion.ofLetter? letter = some (.integer form) ∧
      ∃ f : IntegerField, renderInteger spec form v = f.text ∧
        ∀ g : IntegerField, g.Follows letter spec v ↔ g = f := by
  obtain ⟨form, h⟩ := exists_printsAs hl
  have hfollows := IntegerField.follows_ofForm h spec v
  refine ⟨form, h.ofLetter?_eq, .ofForm form spec v, ?_, fun g => ⟨fun hg => hg.eq hfollows, ?_⟩⟩
  · rw [h.renderInteger_eq, IntegerField.text_ofForm]
  · rintro rfl
    exact hfollows

/-- `-2` with the flags `#` and `0` in a field of 12, in base sixteen. -/
theorem renderInteger_follows_hex :
    'X' ∈ digitLetters ∧ ∃ f : IntegerField, f.text = "0X00FFFFFFFE".toList ∧
      ∀ g : IntegerField,
        g.Follows 'X' { alt := true, zero := true, width := some 12 } (-2) ↔ g = f := by
  have hl : 'X' ∈ digitLetters := by decide
  obtain ⟨form, hform, f, htext, hf⟩ :=
    renderInteger_follows 'X' hl { alt := true, zero := true, width := some 12 } (-2)
  obtain rfl : IntegerForm.hex true = form := by
    injection hform with hform
    injection hform
  exact ⟨hl, f, by rw [← htext]; decide, hf⟩

end StackScript.Format
