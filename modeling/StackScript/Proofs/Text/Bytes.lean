import StackScript.Proofs.Text.Decode
import StackScript.Proofs.Text.Trim
import StackScript.Text.CodePage

/-!
# The bytes of characters

* `utf8EncodeChar_of_lt`, `le_of_mem_utf8EncodeChar`: a character of ASCII is one byte, its own
  number, and all bytes of any other character are above ASCII.
* `decode_encode`: the bytes of a text are read back, so that they tell the text
  (`encode_injective`).
* `equalFold_iff_bytes`: texts are equal up to case if their bytes are.
* `isBoundary` tells the places between two characters, where a text can be cut
  (`checkedSlice?_size`).
-/

namespace StackScript.Text

theorem utf8EncodeChar_of_lt {c : Char} (h : c.toNat < 128) :
    String.utf8EncodeChar c = [UInt8.ofNat c.toNat] := by
  unfold String.utf8EncodeChar
  lift_lets
  intro v
  have hv : v < 128 := h
  exact if_pos (by omega)

theorem le_of_mem_utf8EncodeChar {c : Char} (h : 128 ≤ c.toNat) :
    ∀ b ∈ String.utf8EncodeChar c, 128 ≤ b.toNat := by
  have hbyte {v k : ℕ} (hk : 128 ≤ k) (hv : v + k < 256) : 128 ≤ (UInt8.ofNat (v + k)).toNat := by
    rw [UInt8.toNat_ofNat_of_lt' hv]
    omega
  have hrest (v : ℕ) : 128 ≤ (UInt8.ofNat (v % 64 + 128)).toNat := hbyte le_rfl (by omega)
  unfold String.utf8EncodeChar
  lift_lets
  intro v
  have hv : 128 ≤ v := h
  rw [if_neg (by omega)]
  split
  · rw [List.forall_mem_cons, List.forall_mem_singleton]
    exact ⟨hbyte (by decide) (by omega), hrest _⟩
  split
  · rw [List.forall_mem_cons, List.forall_mem_cons, List.forall_mem_singleton]
    exact ⟨hbyte (by decide) (by omega), hrest _, hrest _⟩
  · rw [List.forall_mem_cons, List.forall_mem_cons, List.forall_mem_cons, List.forall_mem_singleton]
    exact ⟨hbyte (by decide) (by omega), hrest _, hrest _, hrest _⟩

/-- The bytes of a text are read back. -/
theorem decode_encode (cs : List Char) : decode (encode cs) = cs := by
  induction cs with
  | nil => rfl
  | cons c cs ih =>
    rw [decode, encode_cons, (completes_utf8EncodeChar c).decodeFrom_append, ← decode, ih]

theorem encode_injective : Function.Injective encode :=
  Function.LeftInverse.injective decode_encode

/-! ## Letter case -/

open CodePage

theorem asciiLower_of_le {b : UInt8} (h : 128 ≤ b.toNat) : asciiLower b = b := by
  refine if_neg fun hb => ?_
  have : b.toNat ≤ 90 := UInt8.le_iff_toNat_le.mp hb.2
  omega

theorem utf8EncodeChar_toLower (c : Char) :
    String.utf8EncodeChar c.toLower = (String.utf8EncodeChar c).map asciiLower := by
  by_cases hc : c.toNat < 128
  · -- A character of ASCII is one of 128.
    obtain ⟨n, rfl⟩ : ∃ n : Fin 128, Char.ofNat n = c := ⟨⟨_, hc⟩, Char.ofNat_toNat c⟩
    revert n
    decide +kernel
  · have hself : c.toLower = c := (toLower_eq_or c).resolve_right fun h => by omega
    have hbytes := le_of_mem_utf8EncodeChar (not_lt.mp hc)
    rw [hself, List.map_congr_left fun b hb => asciiLower_of_le (hbytes b hb), List.map_id']

theorem encode_map_toLower (cs : List Char) :
    encode (cs.map Char.toLower) = (encode cs).map asciiLower := by
  induction cs with
  | nil => rfl
  | cons c cs ih =>
    rw [List.map_cons, encode_cons, encode_cons, List.map_append, utf8EncodeChar_toLower, ih]

/-- Texts are equal up to case if their bytes are. -/
theorem equalFold_iff_bytes {a b : String} : equalFold a b = true ↔
    (encode a.toList).map asciiLower = (encode b.toList).map asciiLower := by
  rw [equalFold_iff, fold, fold, ← String.toList_inj, String.toList_map, String.toList_map,
    ← encode_injective.eq_iff, encode_map_toLower, encode_map_toLower]

/-! ## Places between characters -/

/-- Whether a place among the bytes of a text is between two characters. -/
def isBoundary (bytes : List UInt8) (i : ℕ) : Bool :=
  i = 0 || i = bytes.length || bytes[i]?.any fun b => !isContinuation b

/-- The characters from one place to another one, `none` unless both are between characters. -/
def checkedSlice? (cs : List Char) (i j : ℕ) : Option (List Char) :=
  if i ≤ j ∧ isBoundary (encode cs) i ∧ isBoundary (encode cs) j then
    some (decode (((encode cs).take j).drop i))
  else none

/-- The first byte of a character goes on with none. -/
theorem isContinuation_of_head? (c : Char) :
    ∀ b ∈ (String.utf8EncodeChar c).head?, isContinuation b = false := by
  have hlow {v : ℕ} (hv : v < 128) : isContinuation (.ofNat v) = false := by
    interval_cases v <;> rfl
  have hhigh {v : ℕ} (hv : 192 ≤ v) (hv' : v < 256) : isContinuation (.ofNat v) = false := by
    interval_cases v <;> rfl
  unfold String.utf8EncodeChar
  lift_lets
  intro v
  split
  · rintro b ⟨⟩
    exact hlow (by omega)
  split
  · rintro b ⟨⟩
    exact hhigh (by omega) (by omega)
  split
  · rintro b ⟨⟩
    exact hhigh (by omega) (by omega)
  · rintro b ⟨⟩
    exact hhigh (by omega) (by omega)

theorem getElem?_encode (as bs : List Char) :
    (encode (as ++ bs))[size as]? = (encode bs).head? := by
  rw [encode_append, ← length_encode, List.getElem?_append_right le_rfl, Nat.sub_self,
    List.head?_eq_getElem?]

theorem isBoundary_size (as bs : List Char) : isBoundary (encode (as ++ bs)) (size as) = true := by
  cases bs with
  | nil =>
    rw [List.append_nil, isBoundary, length_encode]
    simp
  | cons c cs =>
    obtain ⟨b, bytes, hb⟩ := List.exists_cons_of_ne_nil (@String.utf8EncodeChar_ne_nil c)
    have hfirst := isContinuation_of_head? c b (by rw [hb]; rfl)
    rw [isBoundary, getElem?_encode, encode_cons, hb]
    simp [hfirst]

/-- A text can be cut after any of its characters. -/
theorem checkedSlice?_size (as bs cs : List Char) :
    checkedSlice? (as ++ (bs ++ cs)) (size as) (size as + size bs) = some bs := by
  have hfirst := isBoundary_size as (bs ++ cs)
  have hlast := isBoundary_size (as ++ bs) cs
  rw [List.append_assoc, size_append] at hlast
  rw [checkedSlice?, if_pos ⟨Nat.le_add_right _ _, hfirst, hlast⟩, encode_append, encode_append,
    ← length_encode as, ← length_encode bs, List.take_length_add_append,
    List.drop_left, List.take_left, decode_encode]

end StackScript.Text
