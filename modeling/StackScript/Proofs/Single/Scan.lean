import StackScript.Proofs.Single.Grammar
import StackScript.Proofs.Text.Bytes

/-!
# Scanning for a numeral by places

The longest numeral can be looked for among the bytes of a text: a place moves over a sign, digits,
a point, more digits and an exponent, which is only taken if it has digits. What it has moved over is
cut out and handed to a reader of whole numerals.

* `scan?` does so. It fails if a cut is within a character, or if the reader does not take what it
  is given.
* `Reads` is what the reader has to do: it takes every numeral and gives the nearest double.
* `scan?_eq`: with such a reader, the scan never fails and gives what `Single.leading` does.
* `leading_longest` is the statement for all texts.
-/

namespace StackScript.Single

open Number Numeral Text Decimal

/-! ## Places -/

/-- Whether a character of ASCII is at a place. -/
def isAt (bytes : List UInt8) (i : ℕ) (c : Char) : Bool := bytes[i]? == some (.ofNat c.toNat)

/-- Whether a byte is a digit. -/
def isDigitByte (b : UInt8) : Bool := 48 ≤ b && b ≤ 57

/-- The first place from a place on where there is no digit. -/
def digitsEnd (bytes : List UInt8) (i : ℕ) : ℕ := i + ((bytes.drop i).takeWhile isDigitByte).length

/-- The place after a sign, if there is one. -/
def signEnd (bytes : List UInt8) (i : ℕ) : ℕ :=
  if isAt bytes i '+' || isAt bytes i '-' then i + 1 else i

/-- The place after digits with at most one point among them. -/
def mantissaEnd (bytes : List UInt8) (i : ℕ) : ℕ :=
  let i := digitsEnd bytes i
  if isAt bytes i '.' then digitsEnd bytes (i + 1) else i

/-- The place after an exponent, if there is one with digits. -/
def powerEnd (bytes : List UInt8) (i : ℕ) : ℕ :=
  if isAt bytes i 'e' || isAt bytes i 'E' then
    let first := signEnd bytes (i + 1)
    let last := digitsEnd bytes first
    if first < last then last else i
  else i

/-- The number at the beginning of a text without spaces before it, its numeral read by `read`. -/
def scan? (read : List Char → Option Double) (cs : List Char) : Option Single := do
  let bytes := encode cs
  let first := signEnd bytes 0
  let rest ← checkedSlice? cs first bytes.length
  if "inf".toList.isPrefixOf (lower rest) then some (infinity (cs.head? == some '-'))
  else if "nan".toList.isPrefixOf (lower rest) then some nan
  else
    let last := mantissaEnd bytes first
    let mantissa ← checkedSlice? cs first last
    if mantissa = [] ∨ mantissa = ['.'] then some (zero false)
    else
      let numeral ← checkedSlice? cs 0 (powerEnd bytes last)
      (read numeral).map Double.narrow

/-- A reader takes every numeral, and what it gives is the nearest double with the sign of the
numeral. -/
def Reads (read : List Char → Option Double) : Prop :=
  ∀ w : Written, w.IsNumeral →
    ∃ x, read w.chars = some x ∧ x.IsNearest (decide (w.sign = .minus)) w.magnitude

variable {as bs cs ds rest : List Char}

/-- The first byte of a character is the character if either is in ASCII. -/
theorem exists_head?_encode (c : Char) (cs : List Char) : ∃ b, (encode (c :: cs)).head? = some b ∧
    (b.toNat < 128 ∨ c.toNat < 128 → b.toNat = c.toNat) := by
  by_cases hc : c.toNat < 128
  · refine ⟨.ofNat c.toNat, ?_, fun _ => UInt8.toNat_ofNat_of_lt' (show c.toNat < 2 ^ 8 by omega)⟩
    rw [encode_cons, utf8EncodeChar_of_lt hc]
    rfl
  · obtain ⟨b, bytes, hb⟩ := List.exists_cons_of_ne_nil (@String.utf8EncodeChar_ne_nil c)
    have hbyte := le_of_mem_utf8EncodeChar (not_lt.mp hc) b (hb ▸ List.mem_cons_self)
    refine ⟨b, ?_, fun h => by omega⟩
    rw [encode_cons, hb]
    rfl

theorem isAt_size (hcs : as ++ bs = cs) {c : Char} (hc : c.toNat < 128) :
    isAt (encode cs) (size as) c = (bs.head? == some c) := by
  rw [isAt, ← hcs, getElem?_encode]
  cases bs with
  | nil => rfl
  | cons d ds =>
    obtain ⟨b, hb, hbyte⟩ := exists_head?_encode d ds
    have hc' : (UInt8.ofNat c.toNat).toNat = c.toNat :=
      UInt8.toNat_ofNat_of_lt' (show c.toNat < 2 ^ 8 by omega)
    rw [hb, Bool.eq_iff_iff, beq_iff_eq, beq_iff_eq, List.head?_cons, Option.some_inj,
      Option.some_inj, ← UInt8.toNat_inj, hc', ← Char.toNat_inj]
    omega

/-! ## Places after digits -/

theorem isDigit_ten_iff {c : Char} : isDigit 10 c = true ↔ 48 ≤ c.toNat ∧ c.toNat ≤ 57 := by
  refine ⟨toNat_of_isDigit_ten, fun h => ?_⟩
  have hvalue : digitValue c = some (c.toNat - 48) := if_pos h
  exact isDigit_iff.mpr ⟨_, by omega, hvalue⟩

theorem isDigitByte_iff {b : UInt8} : isDigitByte b = true ↔ 48 ≤ b.toNat ∧ b.toNat ≤ 57 := by
  rw [isDigitByte, Bool.and_eq_true, decide_eq_true_iff, decide_eq_true_iff,
    UInt8.le_iff_toNat_le, UInt8.le_iff_toNat_le]
  rfl

/-- Digits are single bytes. -/
theorem forall_mem_encode_digits (hds : ∀ c ∈ ds, isDigit 10 c = true) :
    ∀ b ∈ encode ds, isDigitByte b = true := by
  intro b hb
  obtain ⟨c, hc, hb⟩ := List.mem_flatMap.mp hb
  have hdigit := isDigit_ten_iff.mp (hds c hc)
  rw [utf8EncodeChar_of_lt (by omega), List.mem_singleton] at hb
  rw [hb, isDigitByte_iff, UInt8.toNat_ofNat_of_lt' (show c.toNat < 2 ^ 8 by omega)]
  exact hdigit

theorem head?_encode_rest (hrest : ∀ c ∈ rest.head?, isDigit 10 c = false) :
    ∀ b ∈ (encode rest).head?, isDigitByte b = false := by
  cases rest with
  | nil => nofun
  | cons c cs =>
    obtain ⟨b, hb, hbyte⟩ := exists_head?_encode c cs
    rw [hb]
    rintro b ⟨⟩
    have hc := hrest c rfl
    rw [Bool.eq_false_iff, Ne, isDigit_ten_iff] at hc
    rw [Bool.eq_false_iff, Ne, isDigitByte_iff]
    omega

theorem digitsEnd_size (hcs : as ++ (ds ++ rest) = cs) (hds : ∀ c ∈ ds, isDigit 10 c = true)
    (hrest : ∀ c ∈ rest.head?, isDigit 10 c = false) :
    digitsEnd (encode cs) (size as) = size (as ++ ds) := by
  rw [digitsEnd, ← hcs, encode_append, encode_append, ← length_encode as, List.drop_left,
    Leading.takeWhile_append (forall_mem_encode_digits hds) (head?_encode_rest hrest),
    length_encode, length_encode, size_append]

/-! ## The places of the parts -/

/-- One place further after a character of ASCII. -/
theorem size_add_one (as : List Char) {c : Char} (hc : c.toNat < 128) :
    size as + 1 = size (as ++ [c]) := by
  rw [size_append, size_cons, size_nil, Char.utf8Size_eq_one_iff.mpr (Nat.le_of_lt_succ hc)]

theorem signEnd_size {sign : Sign} (hcs : as ++ (sign.chars ++ bs) = cs)
    (hsign : sign = .none → ∀ c ∈ bs.head?, c ≠ '+' ∧ c ≠ '-') :
    signEnd (encode cs) (size as) = size (as ++ sign.chars) := by
  rw [signEnd, isAt_size hcs (by decide), isAt_size hcs (by decide)]
  cases sign with
  | plus => exact size_add_one as (by decide)
  | minus => exact size_add_one as (by decide)
  | none =>
    have hnone : ¬ (bs.head? == some '+' || bs.head? == some '-') := by
      rw [Bool.or_eq_true, beq_iff_eq, beq_iff_eq]
      rintro (hc | hc)
      · exact (hsign rfl _ hc).1 rfl
      · exact (hsign rfl _ hc).2 rfl
    rw [Sign.chars, List.append_nil]
    exact if_neg hnone

section

variable {w : Written} (h : w.IsMaximal rest)
include h

theorem mantissaEnd_size (hcs : as ++ (w.mantissa ++ (w.powerChars ++ rest)) = cs) :
    mantissaEnd (encode cs) (size as) = size (as ++ w.mantissa) := by
  rw [Written.mantissa, List.append_assoc] at hcs
  have hcs' : (as ++ w.whole) ++ (w.pointChars ++ (w.powerChars ++ rest)) = cs := by
    rwa [List.append_assoc]
  rw [mantissaEnd, digitsEnd_size hcs h.whole h.head?_pointChars]
  simp only [isAt_size hcs' (show '.'.toNat < 128 by decide)]
  cases hf : w.fraction with
  | none =>
    have hmantissa : w.mantissa = w.whole := by
      rw [Written.mantissa, Written.pointChars, hf, Option.elim_none, List.append_nil]
    have hpoint := h.head?_ne_point hf
    rw [Written.pointChars, hf, Option.elim_none, List.nil_append, hmantissa]
    exact if_neg (by rwa [beq_iff_eq])
  | some ds =>
    have hmantissa : w.mantissa = w.whole ++ '.' :: ds := by
      rw [Written.mantissa, Written.pointChars, hf, Option.elim_some]
    have hds : w.part = ds := by rw [Written.part, hf, Option.getD_some]
    rw [Written.pointChars, hf, Option.elim_some] at hcs' ⊢
    rw [List.cons_append, List.head?_cons, if_pos (beq_self_eq_true _),
      size_add_one _ (show '.'.toNat < 128 by decide), hmantissa,
      digitsEnd_size (by rw [← hcs']; simp) (hds ▸ h.part) h.head?_powerChars]
    simp

end

/-- Without digits after them, the letter and the sign of an exponent are left. -/
theorem powerEnd_of_not_begins (hcs : as ++ rest = cs) (hrest : ¬ BeginsPower rest) :
    powerEnd (encode cs) (size as) = size as := by
  rw [powerEnd, isAt_size hcs (by decide), isAt_size hcs (by decide)]
  split
  · rename_i hletter
    rw [Bool.or_eq_true, beq_iff_eq, beq_iff_eq] at hletter
    obtain ⟨c, tail, rfl, hc⟩ : ∃ c tail, rest = c :: tail ∧ (c = 'e' ∨ c = 'E') := by
      rcases hletter with hc | hc <;> obtain ⟨tail, rfl⟩ := List.head?_eq_some_iff.mp hc
      · exact ⟨_, tail, rfl, .inl rfl⟩
      · exact ⟨_, tail, rfl, .inr rfl⟩
    obtain ⟨sign, ds, rfl, hsign⟩ := Leading.exists_sign tail
    have hascii : c.toNat < 128 := by rcases hc with rfl | rfl <;> decide
    have hdigits := head?_of_not_begins hc hrest
    have hfirst : signEnd (encode cs) (size as + 1) = size (as ++ [c] ++ sign.chars) := by
      rw [size_add_one as hascii]
      exact signEnd_size (by rw [← hcs, List.append_assoc, List.singleton_append]) hsign
    have hlast : digitsEnd (encode cs) (size (as ++ [c] ++ sign.chars)) =
        size (as ++ [c] ++ sign.chars ++ []) :=
      digitsEnd_size (by rw [← hcs]; simp) nofun hdigits
    simp only [hfirst, hlast, List.append_nil, lt_irrefl, if_false]
  · rfl

/-- An exponent with digits is passed. -/
theorem powerEnd_append {p : Power} (hcs : as ++ (p.chars ++ rest) = cs) (hp : p.IsSpelled)
    (hrest : ∀ c ∈ rest.head?, isDigit 10 c = false) :
    powerEnd (encode cs) (size as) = size (as ++ p.chars) := by
  have hascii : p.letter.toNat < 128 := by rcases p.letter_eq with h | h <;> rw [h] <;> decide
  have hletter : ((p.chars ++ rest).head? == some 'e' || (p.chars ++ rest).head? == some 'E') := by
    rw [Power.chars, List.cons_append, List.head?_cons]
    rcases p.letter_eq with h | h <;> rw [h] <;> rfl
  have hchars : as ++ p.chars = as ++ [p.letter] ++ p.sign.chars ++ p.digits := by
    simp [Power.chars]
  have hfirst : signEnd (encode cs) (size as + 1) = size (as ++ [p.letter] ++ p.sign.chars) := by
    rw [size_add_one as hascii]
    exact signEnd_size (by rw [← hcs, Power.chars]; simp) fun _ => hp.ne_sign rest
  have hlast : digitsEnd (encode cs) (size (as ++ [p.letter] ++ p.sign.chars)) =
      size (as ++ [p.letter] ++ p.sign.chars ++ p.digits) :=
    digitsEnd_size (by rw [← hcs, Power.chars]; simp) hp.digits hrest
  have hpos : 0 < size p.digits := by
    obtain ⟨d, ds, hds⟩ := List.exists_cons_of_ne_nil hp.ne_nil
    rw [hds, size_cons]
    exact Nat.add_pos_left d.utf8Size_pos _
  rw [powerEnd, isAt_size hcs (by decide), isAt_size hcs (by decide), if_pos hletter, hchars]
  simp only [hfirst, hlast]
  exact if_pos (by rw [size_append _ p.digits]; omega)

section

variable {w : Written} (h : w.IsMaximal rest)
include h

theorem powerEnd_size (hcs : as ++ (w.powerChars ++ rest) = cs) :
    powerEnd (encode cs) (size as) = size (as ++ w.powerChars) := by
  cases hp : w.power with
  | none =>
    rw [Written.powerChars, hp, Option.elim_none, List.nil_append] at hcs
    rw [Written.powerChars, hp, Option.elim_none, List.append_nil]
    exact powerEnd_of_not_begins hcs (h.power_none hp)
  | some p =>
    rw [Written.powerChars, hp, Option.elim_some] at hcs ⊢
    exact powerEnd_append hcs (h.power p hp) h.digit

/-- The number for the parts of a text. -/
def numberOf (w : Written) (rest : List Char) : Single :=
  if "inf".toList.isPrefixOf (lower (w.unsigned ++ rest)) then infinity (decide (w.sign = .minus))
  else if "nan".toList.isPrefixOf (lower (w.unsigned ++ rest)) then nan
  else if w.whole = [] ∧ w.part = [] then zero false
  else (w.decimal.toDouble (decide (w.sign = .minus))).narrow

/-- What is read is the number for the parts. -/
theorem leading_eq {text : String} (ht : text.toList.dropWhile isSpace = w.chars ++ rest) :
    leading text = numberOf w rest := by
  simp only [leading, ht, h.splitSign_eq, h.leading?_eq, numberOf]
  by_cases hnone : w.whole = [] ∧ w.part = []
  · rw [if_pos hnone, if_pos hnone]
  · rw [if_neg hnone, if_neg hnone, ← ofDecimalTwice_eq]

/-- Without digits a mantissa is a point or nothing at all. -/
theorem mantissa_eq_iff : w.mantissa = [] ∨ w.mantissa = ['.'] ↔ w.whole = [] ∧ w.part = [] := by
  cases hw : w.whole with
  | nil =>
    cases hf : w.fraction with
    | none => simp [Written.mantissa, Written.pointChars, Written.part, hw, hf]
    | some ds => simp [Written.mantissa, Written.pointChars, Written.part, hw, hf]
  | cons d ds =>
    have hd : d ≠ '.' := by
      rintro rfl
      exact absurd (h.whole '.' (hw ▸ List.mem_cons_self)) (by decide)
    simp [Written.mantissa, hw, hd]

/-- No cut of the scan is within a character, its reader takes what it is given, and the number is
the one for the parts. -/
theorem scan?_eq {read : List Char → Option Double} (hread : Reads read) :
    scan? read (w.chars ++ rest) = some (numberOf w rest) := by
  obtain ⟨cs, hcs⟩ : ∃ cs, w.chars ++ rest = cs := ⟨_, rfl⟩
  have hsign : w.sign.chars ++ (w.unsigned ++ rest) = cs := by
    rw [← hcs, Written.chars, List.append_assoc]
  have hmantissa : w.sign.chars ++ (w.mantissa ++ (w.powerChars ++ rest)) = cs := by
    rw [← hsign, Written.unsigned, List.append_assoc]
  have hpower : (w.sign.chars ++ w.mantissa) ++ (w.powerChars ++ rest) = cs := by
    rw [← hmantissa, List.append_assoc]
  -- The places of the parts.
  have hfirst : signEnd (encode cs) (size []) = size ([] ++ w.sign.chars) :=
    signEnd_size hsign h.unsigned
  have hlast := mantissaEnd_size h hmantissa
  have hstop := powerEnd_size h hpower
  -- The three cuts.
  have hrest : checkedSlice? cs (size w.sign.chars) (encode cs).length =
      some (w.unsigned ++ rest) := by
    have hcut := checkedSlice?_size w.sign.chars (w.unsigned ++ rest) []
    rwa [List.append_nil, ← size_append, hsign, ← length_encode cs] at hcut
  have hbefore : checkedSlice? cs (size w.sign.chars) (size (w.sign.chars ++ w.mantissa)) =
      some w.mantissa := by
    have hcut := checkedSlice?_size w.sign.chars w.mantissa (w.powerChars ++ rest)
    rwa [hmantissa, ← size_append] at hcut
  have hnumeral : checkedSlice? cs 0 (size (w.sign.chars ++ w.mantissa ++ w.powerChars)) =
      some w.chars := by
    have hcut := checkedSlice?_size [] w.chars rest
    rw [List.nil_append, hcs, size_nil, Nat.zero_add] at hcut
    rw [List.append_assoc]
    exact hcut
  have hminus : (cs.head? == some '-') = decide (w.sign = .minus) := by
    have hunsigned := h.unsigned
    rw [← hsign]
    cases hs : w.sign with
    | plus | minus => rfl
    | none =>
      rw [Sign.chars, List.nil_append, beq_eq_false_iff_ne.mpr fun hc => (hunsigned hs _ hc).2 rfl]
      rfl
  rw [List.nil_append, size_nil] at hfirst
  simp only [hcs, scan?, Option.bind_eq_bind, Option.bind_some, hfirst, hlast, hstop, hrest,
    hbefore, hnumeral, hminus, mantissa_eq_iff h, numberOf]
  by_cases hnone : w.whole = [] ∧ w.part = []
  · rw [if_pos hnone, if_pos hnone]
    split
    · rfl
    split <;> rfl
  · obtain ⟨x, hx, hnearest⟩ := hread w ⟨h.toIsSpelled, not_and_or.mp hnone⟩
    have hdouble := isNearest_toDouble (decide (w.sign = .minus)) w.decimal
    rw [Written.value_decimal] at hdouble
    rw [if_neg hnone, if_neg hnone, hx, Option.map_some, hnearest.unique hdouble]
    split
    · rfl
    split <;> rfl

end

/-! ## All texts -/

/-- A reader of whole numerals. -/
def wholeDouble? (cs : List Char) : Option Double :=
  let (negative, cs) := splitSign cs
  match leading? cs with
  | some (d, []) => some (d.toDouble negative)
  | _ => none

theorem reads_wholeDouble? : Reads wholeDouble? := by
  intro w hw
  have hmaximal := hw.isMaximal
  have hsign := hmaximal.splitSign_eq
  have hleading := hmaximal.leading?_eq
  simp only [List.append_nil, if_neg (not_and_or.mpr hw.some_digit)] at hsign hleading
  have hdouble := isNearest_toDouble (decide (w.sign = .minus)) w.decimal
  rw [Written.value_decimal] at hdouble
  refine ⟨_, ?_, hdouble⟩
  rw [wholeDouble?, hsign]
  simp only [hleading]

/-- What is read for the parts of a text that begins with no word. -/
theorem leading_of_not_word {text : String} {w : Written} (h : w.IsMaximal rest)
    (ht : w.chars ++ rest = text.toList.dropWhile isSpace)
    (hinf : ¬ "inf".toList <+: lower (splitSign (text.toList.dropWhile isSpace)).2)
    (hnan : ¬ "nan".toList <+: lower (splitSign (text.toList.dropWhile isSpace)).2) :
    leading text = if w.whole = [] ∧ w.part = [] then zero false
      else (w.decimal.toDouble (decide (w.sign = .minus))).narrow := by
  rw [← ht, h.splitSign_eq, ← List.isPrefixOf_iff_prefix] at hinf hnan
  rw [leading_eq h ht.symm, numberOf, if_neg hinf, if_neg hnan]

/-- What follows the spaces and the sign of a text decides what is read. If it begins with `inf` or
`nan` in whatever case, it is an infinity with the sign or no number. If not, it is the double
nearest to the longest numeral that begins the text, narrowed; and if no numeral does, it is zero.
A scan by places with a reader that takes numerals gives the same, and its cuts and its reader never
fail. -/
theorem leading_longest (text : String) :
    let body := text.toList.dropWhile isSpace
    let unsigned := lower (splitSign body).2
    ("inf".toList <+: unsigned → leading text = infinity (splitSign body).1) ∧
      ("nan".toList <+: unsigned → (leading text).isNaN = true) ∧
      (¬ "inf".toList <+: unsigned → ¬ "nan".toList <+: unsigned →
        (∀ w : Written, w.IsLongest body → ∃ x : Double,
          x.IsNearest (decide (w.sign = .minus)) w.magnitude ∧ x.Narrows (leading text)) ∧
        ((∃ w : Written, w.IsLongest body) ∨
          (∀ w : Written, w.IsNumeral → ¬ w.chars <+: body) ∧ leading text = zero false)) ∧
      ∀ read, Reads read → scan? read body = some (leading text) := by
  intro body unsigned
  obtain ⟨w, rest, h, hbody⟩ := Written.exists_isMaximal body
  have hleading := leading_eq h hbody.symm
  have hsplit : splitSign body = (decide (w.sign = .minus), w.unsigned ++ rest) :=
    hbody ▸ h.splitSign_eq
  have hunsigned : unsigned = lower (w.unsigned ++ rest) := congrArg (lower ·.2) hsplit
  refine ⟨fun hinf => ?_, fun hnan => ?_, fun hinf hnan => ⟨fun v hv => ?_, ?_⟩,
    fun read hread => ?_⟩
  · rw [hunsigned, ← List.isPrefixOf_iff_prefix] at hinf
    rw [hleading, hsplit]
    exact if_pos hinf
  · have hinf : ¬ "inf".toList <+: unsigned := by
      rintro ⟨tail, htail⟩
      obtain ⟨tail', htail'⟩ := hnan
      rw [← htail] at htail'
      exact absurd (List.cons.inj htail').1 (by decide)
    rw [hunsigned, ← List.isPrefixOf_iff_prefix] at hinf hnan
    rw [hleading, numberOf, if_neg hinf, if_pos hnan]
    decide
  · obtain ⟨tail, htail⟩ := hv.begins
    have hv' := hv
    rw [← htail] at hv'
    have hdouble := isNearest_toDouble (decide (v.sign = .minus)) v.decimal
    rw [Written.value_decimal] at hdouble
    refine ⟨_, hdouble, ?_⟩
    rw [leading_of_not_word hv'.isMaximal htail hinf hnan, if_neg (not_and_or.mpr hv.some_digit)]
    exact Double.narrows_narrow _
  · refine or_iff_not_imp_left.mpr fun hnone => ?_
    have hno (v : Written) (hv : v.IsNumeral) : ¬ v.chars <+: body := fun hbegins =>
      hnone (Written.exists_isLongest ⟨v, hv, hbegins⟩)
    refine ⟨hno, ?_⟩
    rw [leading_of_not_word h hbody hinf hnan]
    refine if_pos ?_
    by_contra hdigits
    exact hno w ⟨h.toIsSpelled, not_and_or.mp hdigits⟩ (hbody ▸ List.prefix_append _ _)
  · rw [hleading, ← hbody]
    exact scan?_eq h hread

/-- A numeral without digits before its point, and the beginning of an exponent and a character
outside of ASCII after it. -/
theorem leading_longest_dangling :
    leading " -.5E+é" = ⟨0xBF000000⟩ ∧
      scan? wholeDouble? "-.5E+é".toList = some ⟨0xBF000000⟩ ∧
      ∃ w : Written, w.IsLongest "-.5E+é".toList ∧ ∃ x : Double,
        x.IsNearest (decide (w.sign = .minus)) w.magnitude ∧ x.Narrows ⟨0xBF000000⟩ := by
  have hread : leading " -.5E+é" = ⟨0xBF000000⟩ := by decide +kernel
  have hbody : " -.5E+é".toList.dropWhile isSpace = "-.5E+é".toList := by decide
  obtain ⟨-, -, hnumeral, hscan⟩ := leading_longest " -.5E+é"
  obtain ⟨hnearest, hsome⟩ := hnumeral (by decide) (by decide)
  rw [hread] at hnearest hsome hscan
  rw [hbody] at hnearest hsome hscan
  obtain ⟨w, hw⟩ := hsome.resolve_right fun h => absurd h.2 (by decide)
  exact ⟨hread, hscan _ reads_wholeDouble?, w, hw, hnearest w hw⟩

end StackScript.Single
