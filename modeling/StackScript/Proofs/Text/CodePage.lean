import StackScript.Proofs.Text.Bytes

/-!
# Comparison under a code page as an equivalence

* `CodePage.canon`: one byte for all bytes that are equal up to case. Bytes are equal up to case if
  they have one canonical byte (`alike_iff`), texts if their canonical bytes are the same
  (`equal_iff`).
* `canon_eq_asciiLower`: bytes of ASCII, and all bytes under a page that folds no letters above
  ASCII, are told apart as without a page.
* `equal_equivalence` is the statement about all pages.
-/

namespace StackScript.Text.CodePage

variable {page : CodePage} {a b : UInt8}

/-! ## One byte for all cases of a letter -/

/-- Whether a byte above ASCII may have another case. -/
def isLetter (page : CodePage) (c : UInt8) : Bool := 128 ≤ c && !page.isSign c

/-- The byte that stands for all bytes that a byte is equal to up to case. -/
def canon (page : CodePage) (c : UInt8) : UInt8 :=
  if page.isLetter (page.lower c) then page.foldHigh (page.lower c) else page.lower c

/-- No letter folds to a sign or into ASCII. -/
theorem isLetter_foldHigh {c : UInt8} (h : page.isLetter c = true) :
    page.isLetter (page.foldHigh c) = true := by
  revert c
  cases page <;> decide +kernel

theorem alikeHigh_iff : page.alikeHigh a b = true ↔
    page.isLetter a = true ∧ page.isLetter b = true ∧ page.foldHigh a = page.foldHigh b := by
  simp only [alikeHigh, isLetter, Bool.and_eq_true, beq_iff_eq]
  tauto

/-- Bytes are equal up to case if the same byte stands for them. -/
theorem alike_iff : page.alike a b = true ↔ page.canon a = page.canon b := by
  simp only [alike, Bool.or_eq_true, beq_iff_eq, alikeHigh_iff, canon]
  generalize hl : page.lower a = l
  generalize hk : page.lower b = k
  constructor
  · rintro ((rfl | rfl) | ⟨hl, hk, hfold⟩)
    · rw [← hl, ← hk]
    · rfl
    · rw [if_pos hl, if_pos hk, hfold]
  · intro h
    split at h
    · rename_i hletter
      split at h
      · exact .inr ⟨hletter, ‹_›, h⟩
      · rename_i hother
        exact absurd (h ▸ isLetter_foldHigh hletter) hother
    · rename_i hother
      split at h
      · rename_i hletter
        exact absurd (h ▸ isLetter_foldHigh hletter) hother
      · exact .inl (.inr h)

theorem equalBytes_iff {as bs : List UInt8} :
    page.equalBytes as bs = true ↔ as.map page.canon = bs.map page.canon := by
  induction as generalizing bs with
  | nil => cases bs <;> simp [equalBytes]
  | cons a as ih =>
    cases bs with
    | nil => simp [equalBytes]
    | cons b bs =>
      rw [equalBytes, Bool.and_eq_true, alike_iff, ih, List.map_cons, List.map_cons,
        List.cons.injEq]

/-- Texts are equal up to case if the same bytes stand for theirs. -/
theorem equal_iff {a b : String} : page.equal a b = true ↔
    (encode a.toList).map page.canon = (encode b.toList).map page.canon := equalBytes_iff

/-! ## Letters of ASCII -/

/-- Cases of an ASCII letter are cases under every page. -/
theorem canon_asciiLower (page : CodePage) (c : UInt8) :
    page.canon (asciiLower c) = page.canon c := by
  have hlower : page.lower (asciiLower c) = page.lower c := by
    revert c
    cases page <;> decide +kernel
  rw [canon, hlower, canon]

/-- Without a letter above ASCII, a page does what ASCII does. -/
theorem canon_eq_asciiLower {c : UInt8} (h : c.toNat < 128 ∨ page = .other) :
    page.canon c = asciiLower c := by
  revert c
  cases page <;> decide +kernel

theorem ofNumber_eq_other {n : Int32} (h : n ≠ 866 ∧ n ≠ 1250 ∧ n ≠ 1251 ∧ n ≠ 1252) :
    ofNumber n = .other := by
  obtain ⟨h866, h1250, h1251, h1252⟩ := h
  simp only [ofNumber, h866, h1250, h1251, h1252, or_self, if_false]

theorem toNat_lt_of_mem_encode {cs : List Char} (h : ∀ c ∈ cs, c.toNat < 128) {b : UInt8}
    (hb : b ∈ encode cs) : b.toNat < 128 := by
  obtain ⟨c, hc, hbc⟩ := List.mem_flatMap.mp hb
  rw [utf8EncodeChar_of_lt (h c hc), List.mem_singleton] at hbc
  have hlt := h c hc
  rw [hbc, UInt8.toNat_ofNat_of_lt' (Nat.lt_trans hlt (by decide))]
  exact hlt

/-- Under the page with any number, equality up to case is an equivalence of texts. It holds of all
texts that are equal up to the case of ASCII letters. It holds of no others where both texts are
ASCII, or where the number is not that of a page with letters above ASCII. -/
theorem equal_equivalence (n : Int32) :
    Equivalence (fun a b : String => (ofNumber n).equal a b = true) ∧
      (∀ a b : String, equalFold a b = true → (ofNumber n).equal a b = true) ∧
      ∀ a b : String,
        ((∀ c ∈ a.toList, c.toNat < 128) ∧ ∀ c ∈ b.toList, c.toNat < 128) ∨
          (n ≠ 866 ∧ n ≠ 1250 ∧ n ≠ 1251 ∧ n ≠ 1252) →
        ((ofNumber n).equal a b = true ↔ equalFold a b = true) := by
  refine ⟨?_, fun a b h => ?_, fun a b h => ?_⟩
  · simp only [equal_iff]
    exact eq_equivalence.comap fun a : String => (encode a.toList).map (ofNumber n).canon
  · have hcanon : (ofNumber n).canon = (ofNumber n).canon ∘ asciiLower :=
      funext fun c => (canon_asciiLower _ c).symm
    rw [equal_iff, hcanon, ← List.map_map, ← List.map_map, equalFold_iff_bytes.mp h]
  · have hsame {s : String} (hs : (∀ c ∈ s.toList, c.toNat < 128) ∨ ofNumber n = .other) :
        (encode s.toList).map (ofNumber n).canon = (encode s.toList).map asciiLower :=
      List.map_congr_left fun b hb =>
        canon_eq_asciiLower (hs.imp_left fun hascii => toNat_lt_of_mem_encode hascii hb)
    rw [equal_iff, equalFold_iff_bytes, hsame (h.imp And.left ofNumber_eq_other),
      hsame (h.imp And.right ofNumber_eq_other)]

/-- Two texts that are equal under page 1251 only, as the second bytes of their letters are cases of
one letter there; and two texts of ASCII. -/
theorem equal_equivalence_letters :
    (ofNumber 1251).equal "è" "ø" = true ∧ (ofNumber 1251).equal "ø" "è" = true ∧
      (ofNumber 1252).equal "è" "ø" = false ∧ (ofNumber 866).equal "VAULT" "vault" = true := by
  have h : (ofNumber 1251).equal "è" "ø" = true := by decide +kernel
  have hsymm : (ofNumber 1251).equal "ø" "è" = true := (equal_equivalence 1251).1.symm h
  have hother : (ofNumber 1252).equal "è" "ø" = false := by decide +kernel
  have hfold : equalFold "VAULT" "vault" = true := equalFold_iff_bytes.mpr (by decide +kernel)
  exact ⟨h, hsymm, hother, (equal_equivalence 866).2.1 _ _ hfold⟩

end StackScript.Text.CodePage
