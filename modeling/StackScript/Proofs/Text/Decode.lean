import Mathlib
import StackScript.Text.Utf8

/-!
# Reading a part of a text

Bytes that are cut out of a text may begin within a character and end within another one. They are
read as the characters that are there as a whole, and replacements for what is left of the others.

* `completes_utf8EncodeChar`: the bytes of a character are read as this character, and the last of
  them completes it.
* `IsParted` tells the whole characters from the bytes before and after them; a part of a text's
  bytes is such (`exists_isParted`).
* `IsParted.decode_eq` is what they are read as, and `IsParted.size_decode` how long it is.
-/

namespace StackScript.Text

/-! ## One byte more -/

/-- Reads a byte, with a character that may be open. -/
def next : Option Pending → UInt8 → List Char × Option Pending
  | none, b => begin? b
  | some p, b => p.feed b

theorem decodeFrom_cons (state : Option Pending) (b : UInt8) (bs : List UInt8) :
    decodeFrom state (b :: bs) = (next state b).1 ++ decodeFrom (next state b).2 bs := by
  cases state <;> rfl

/-- The bytes complete a character with the last of them, and none before. -/
inductive Completes (c : Char) : Option Pending → List UInt8 → Prop
  | last {state : Option Pending} {b : UInt8} (h : next state b = ([c], none)) :
    Completes c state [b]
  | more {state : Option Pending} {b : UInt8} {p : Pending} {bs : List UInt8}
    (h : next state b = ([], some p)) (hbs : Completes c (some p) bs) : Completes c state (b :: bs)

namespace Completes

variable {c : Char} {state : Option Pending} {bs : List UInt8}

/-- What follows is read as if it came first. -/
theorem decodeFrom_append (h : Completes c state bs) (rest : List UInt8) :
    decodeFrom state (bs ++ rest) = c :: decodeFrom none rest := by
  induction h with
  | last h => rw [List.singleton_append, decodeFrom_cons, h, List.singleton_append]
  | more h _ ih => rw [List.cons_append, decodeFrom_cons, h, List.nil_append, ih]

/-- Without the last of its bytes a character that has been opened is replaced. -/
theorem decodeFrom_beginning (h : Completes c state bs) {ps : List UInt8} (hps : ps <+: bs)
    (hlt : ps.length < bs.length) (hopen : state = none → ps ≠ []) :
    decodeFrom state ps = [replacement] := by
  induction h generalizing ps with
  | @last state b _ =>
    obtain rfl : ps = [] := List.eq_nil_of_length_eq_zero (Nat.lt_one_iff.mp hlt)
    cases state with
    | none => exact absurd rfl (hopen rfl)
    | some p => rfl
  | @more state b p bs h _ ih =>
    cases ps with
    | nil =>
      cases state with
      | none => exact absurd rfl (hopen rfl)
      | some p => rfl
    | cons d ps =>
      obtain ⟨rfl, htail⟩ := List.cons_prefix_cons.mp hps
      rw [decodeFrom_cons, h, List.nil_append]
      exact ih htail (Nat.lt_of_succ_lt_succ hlt) nofun

end Completes

/-! ## The bytes of a character -/

/-- Whether a byte goes on with a character that began before. -/
def isContinuation (b : UInt8) : Bool := 0x80 ≤ b && b < 0xC0

theorem toNat_continuation {t : ℕ} (ht : t < 64) : (UInt8.ofNat (t + 128)).toNat = t + 128 :=
  UInt8.toNat_ofNat_of_lt' (show t + 128 < 2 ^ 8 by omega)

theorem isContinuation_ofNat {t : ℕ} (ht : t < 64) :
    isContinuation (.ofNat (t + 128)) = true := by
  rw [isContinuation, Bool.and_eq_true, decide_eq_true_iff, decide_eq_true_iff,
    UInt8.le_iff_toNat_le, UInt8.lt_iff_toNat_lt, toNat_continuation ht]
  show 128 ≤ t + 128 ∧ t + 128 < 192
  omega

/-- A byte that goes on with nothing is replaced. -/
theorem begin?_of_isContinuation {b : UInt8} (h : isContinuation b = true) :
    begin? b = ([replacement], none) := by
  obtain ⟨hlow, hhigh⟩ := Bool.and_eq_true_iff.mp h
  have hlow := of_decide_eq_true hlow
  have hhigh : b < 0xC2 := UInt8.lt_trans (of_decide_eq_true hhigh) (by decide)
  rw [begin?, Lead.ofByte, if_neg (UInt8.not_lt.mpr hlow), if_pos hhigh]

theorem begin?_one {v : ℕ} (h : v < 128) : begin? (.ofNat v) = ([Char.ofNat v], none) := by
  have hv : (UInt8.ofNat v).toNat = v := UInt8.toNat_ofNat_of_lt' (show v < 2 ^ 8 by omega)
  have hlow : UInt8.ofNat v < 0x80 := UInt8.lt_iff_toNat_lt.mpr (by rwa [hv])
  rw [begin?, Lead.ofByte, if_pos hlow, hv]

/-- The first of two bytes is above the two that would begin an overlong form. -/
theorem begin?_two {a : ℕ} (h : 2 ≤ a) (h' : a < 32) :
    begin? (.ofNat (a % 32 + 192)) = ([], some ⟨a, 1, 0x80, 0xBF⟩) := by
  interval_cases a <;> rfl

/-- The first of three bytes. Overlong forms and surrogates are left out by the next one. -/
theorem begin?_three {a : ℕ} (h : a < 16) :
    begin? (.ofNat (a % 16 + 224)) = ([], some ⟨a, 2,
      if a = 0 then 0xA0 else 0x80, if a = 13 then 0x9F else 0xBF⟩) := by
  interval_cases a <;> rfl

/-- The first of four bytes. Overlong forms and what is above the last character are left out by the
next one. -/
theorem begin?_four {a : ℕ} (h : a < 5) :
    begin? (.ofNat (a % 8 + 240)) = ([], some ⟨a, 3,
      if a = 0 then 0x90 else 0x80, if a = 4 then 0x8F else 0xBF⟩) := by
  interval_cases a <;> rfl

section

variable {value t : ℕ} (ht : t < 64)
include ht

/-- A byte in the range goes on with an open character. -/
theorem feed_more (left : ℕ) {low high : UInt8} (hlow : low.toNat ≤ t + 128)
    (hhigh : t + 128 ≤ high.toNat) :
    Pending.feed ⟨value, left + 2, low, high⟩ (.ofNat (t + 128)) =
      ([], some ⟨value * 64 + t, left + 1, 0x80, 0xBF⟩) := by
  have h := toNat_continuation ht
  have hrange : low ≤ .ofNat (t + 128) ∧ .ofNat (t + 128) ≤ high := by
    rw [UInt8.le_iff_toNat_le, UInt8.le_iff_toNat_le, h]
    exact ⟨hlow, hhigh⟩
  simp only [Pending.feed, if_pos hrange, h, Nat.add_sub_cancel]
  exact if_neg (by omega)

/-- The last byte completes the character. -/
theorem feed_last : Pending.feed ⟨value, 1, 0x80, 0xBF⟩ (.ofNat (t + 128)) =
    ([Char.ofNat (value * 64 + t)], none) := by
  have h := toNat_continuation ht
  have hrange : (0x80 : UInt8) ≤ .ofNat (t + 128) ∧ .ofNat (t + 128) ≤ (0xBF : UInt8) := by
    rw [UInt8.le_iff_toNat_le, UInt8.le_iff_toNat_le, h]
    exact ⟨Nat.le_add_left 128 t, show t + 128 ≤ 191 by omega⟩
  simp only [Pending.feed, if_pos hrange, h, Nat.add_sub_cancel]
  exact if_pos (Nat.le_refl 1)

end

/-! The bytes of a character, by how many there are. -/

section

variable {v : ℕ}

theorem completes_one (h : v < 0x80) : Completes (.ofNat v) none [.ofNat v] :=
  .last (begin?_one h)

theorem completes_two (h : 0x80 ≤ v) (h' : v < 0x800) :
    Completes (.ofNat v) none [.ofNat (v / 64 % 32 + 192), .ofNat (v % 64 + 128)] := by
  refine .more (begin?_two (by omega) (by omega)) (.last ?_)
  rw [next, feed_last (Nat.mod_lt v (by decide)), Nat.div_add_mod']

theorem completes_three (h : 0x800 ≤ v) (h' : v < 0xD800 ∨ 0xDFFF < v ∧ v < 0x10000) :
    Completes (.ofNat v) none
      [.ofNat (v / 4096 % 16 + 224), .ofNat (v / 64 % 64 + 128), .ofNat (v % 64 + 128)] := by
  obtain ⟨a, ha⟩ : ∃ a, v / 4096 = a := ⟨_, rfl⟩
  obtain ⟨t, ht⟩ : ∃ t, v / 64 % 64 = t := ⟨_, rfl⟩
  rw [ha, ht]
  refine .more (begin?_three (by omega)) (.more (feed_more (by omega) 0 ?_ ?_) (.last ?_))
  · split
    · show 160 ≤ t + 128
      omega
    · exact Nat.le_add_left 128 t
  · split
    · show t + 128 ≤ 159
      omega
    · show t + 128 ≤ 191
      omega
  · rw [next, feed_last (Nat.mod_lt v (by decide)), show (a * 64 + t) * 64 + v % 64 = v by omega]

theorem completes_four (h : 0x10000 ≤ v) (h' : v < 0x110000) :
    Completes (.ofNat v) none [.ofNat (v / 262144 % 8 + 240), .ofNat (v / 4096 % 64 + 128),
      .ofNat (v / 64 % 64 + 128), .ofNat (v % 64 + 128)] := by
  obtain ⟨a, ha⟩ : ∃ a, v / 262144 = a := ⟨_, rfl⟩
  obtain ⟨r, hr⟩ : ∃ r, v / 4096 % 64 = r := ⟨_, rfl⟩
  obtain ⟨t, ht⟩ : ∃ t, v / 64 % 64 = t := ⟨_, rfl⟩
  rw [ha, hr, ht]
  refine .more (begin?_four (by omega)) (.more (feed_more (by omega) 1 ?_ ?_)
    (.more (feed_more (by omega) 0 (Nat.le_add_left 128 t) (show t + 128 ≤ 191 by omega))
      (.last ?_)))
  · split
    · show 144 ≤ r + 128
      omega
    · exact Nat.le_add_left 128 r
  · split
    · show r + 128 ≤ 143
      omega
    · show r + 128 ≤ 191
      omega
  · rw [next, feed_last (Nat.mod_lt v (by decide)),
      show ((a * 64 + r) * 64 + t) * 64 + v % 64 = v by omega]

end

/-- The bytes of a character complete it. -/
theorem completes_utf8EncodeChar (c : Char) : Completes c none (String.utf8EncodeChar c) := by
  have hvalid : c.val.toNat < 0xD800 ∨ 0xDFFF < c.val.toNat ∧ c.val.toNat < 0x110000 := c.valid
  have hc : Char.ofNat c.val.toNat = c := Char.ofNat_toNat c
  unfold String.utf8EncodeChar
  lift_lets
  intro v
  change Char.ofNat v = c at hc
  change v < 0xD800 ∨ 0xDFFF < v ∧ v < 0x110000 at hvalid
  clear_value v
  subst hc
  split
  · exact completes_one (by omega)
  split
  · exact completes_two (by omega) (by omega)
  split
  · exact completes_three (by omega) (by omega)
  · exact completes_four (by omega) (by omega)

/-- All bytes of a character but the first go on with it. -/
theorem isContinuation_of_mem_tail (c : Char) :
    ∀ b ∈ (String.utf8EncodeChar c).tail, isContinuation b = true := by
  have hlow (v : ℕ) : isContinuation (.ofNat (v % 64 + 128)) = true :=
    isContinuation_ofNat (Nat.mod_lt v (by decide))
  unfold String.utf8EncodeChar
  lift_lets
  intro v
  split
  · exact List.forall_mem_nil _
  split
  · rw [List.tail_cons, List.forall_mem_singleton]
    exact hlow v
  split
  · rw [List.tail_cons, List.forall_mem_cons, List.forall_mem_singleton]
    exact ⟨hlow (v / 64), hlow v⟩
  · rw [List.tail_cons, List.forall_mem_cons, List.forall_mem_cons, List.forall_mem_singleton]
    exact ⟨hlow (v / 4096), hlow (v / 64), hlow v⟩

/-! ## Parts of a text -/

/-- Bytes that go on with a character begun before, whole characters, and bytes that begin a
character and do not finish it. -/
structure IsParted (bytes head : List UInt8) (inner : List Char) (tail : List UInt8) : Prop where
  eq_append : bytes = head ++ (encode inner ++ tail)
  isContinuation : ∀ b ∈ head, isContinuation b = true
  isUnfinished : ∃ c, tail <+: String.utf8EncodeChar c ∧ tail.length < c.utf8Size

/-- What begins a text and ends at any byte: the characters that fit and the beginning of the
next. -/
theorem exists_take_encode (cs : List Char) (n : ℕ) :
    ∃ tail, (encode cs).take n = encode (cut n cs) ++ tail ∧
      ∃ c, tail <+: String.utf8EncodeChar c ∧ tail.length < c.utf8Size := by
  induction cs generalizing n with
  | nil => exact ⟨[], by simp [cut], 'a', List.nil_prefix, by decide⟩
  | cons c cs ih =>
    have hlen := String.length_utf8EncodeChar c
    by_cases hfits : c.utf8Size ≤ n
    · obtain ⟨tail, htake, htail⟩ := ih (n - c.utf8Size)
      refine ⟨tail, ?_, htail⟩
      rw [cut, if_pos hfits, encode_cons, encode_cons, List.take_append, hlen, htake,
        List.take_of_length_le (by rwa [hlen]), List.append_assoc]
    · refine ⟨(String.utf8EncodeChar c).take n, ?_, c, List.take_prefix _ _, ?_⟩
      · rw [cut, if_neg hfits, encode_cons, encode_nil, List.nil_append,
          List.take_append_of_le_length (by omega)]
      · rw [List.length_take]
        omega

/-- What ends a text and begins at any byte: the end of a character and those that follow. -/
theorem exists_drop_encode (cs : List Char) (n : ℕ) :
    ∃ head rest, (encode cs).drop n = head ++ encode rest ∧ rest <:+ cs ∧
      ∀ b ∈ head, isContinuation b = true := by
  induction cs generalizing n with
  | nil => exact ⟨[], [], by simp, List.suffix_rfl, by simp⟩
  | cons c cs ih =>
    have hlen := String.length_utf8EncodeChar c
    rcases Nat.eq_zero_or_pos n with rfl | hpos
    · exact ⟨[], c :: cs, rfl, List.suffix_rfl, by simp⟩
    by_cases hbefore : c.utf8Size ≤ n
    · obtain ⟨head, rest, hdrop, hrest, hhead⟩ := ih (n - c.utf8Size)
      refine ⟨head, rest, ?_, hrest.trans (List.suffix_cons c cs), hhead⟩
      rw [encode_cons, List.drop_append, hlen, hdrop, List.drop_of_length_le (by omega),
        List.nil_append]
    · refine ⟨(String.utf8EncodeChar c).drop n, cs, ?_, List.suffix_cons c cs, fun b hb => ?_⟩
      · rw [encode_cons, List.drop_append_of_le_length (by omega)]
      · obtain ⟨k, rfl⟩ := Nat.exists_eq_add_one.mpr hpos
        rw [← List.drop_tail] at hb
        exact isContinuation_of_mem_tail c b (List.mem_of_mem_drop hb)

/-- Every part of a text's bytes is parted so, and its whole characters are some of the text. -/
theorem exists_isParted (cs : List Char) (start count : ℕ) :
    ∃ head inner tail, IsParted (((encode cs).drop start).take count) head inner tail ∧
      inner <:+: cs := by
  obtain ⟨head, rest, hdrop, hrest, hhead⟩ := exists_drop_encode cs start
  by_cases hwithin : count ≤ head.length
  · -- The part ends within the character in which it begins.
    refine ⟨head.take count, [], [], ⟨?_, fun b hb => hhead b (List.mem_of_mem_take hb), 'a',
      List.nil_prefix, by decide⟩, List.nil_infix⟩
    rw [hdrop, List.take_append_of_le_length hwithin, encode_nil, List.append_nil, List.append_nil]
  · obtain ⟨tail, htake, htail⟩ := exists_take_encode rest (count - head.length)
    refine ⟨head, cut (count - head.length) rest, tail, ⟨?_, hhead, htail⟩, ?_⟩
    · rw [hdrop, List.take_append, htake, List.take_of_length_le (by omega)]
    · obtain ⟨before, hbefore⟩ := hrest
      exact ⟨before, _, by rw [List.append_assoc, cut_append_drop, hbefore]⟩

namespace IsParted

variable {bytes head tail : List UInt8} {inner : List Char}

/-- A part is read as its whole characters; a replacement stands for each byte before them, and one
for all the bytes after them. -/
theorem decode_eq (h : IsParted bytes head inner tail) :
    decode bytes = List.replicate head.length replacement ++
      (inner ++ if tail = [] then [] else [replacement]) := by
  obtain ⟨rfl, hhead, c, hprefix, hlt⟩ := h
  have htail : decodeFrom none tail = if tail = [] then [] else [replacement] := by
    split
    · rename_i hnone
      rw [hnone]
      rfl
    · rename_i hsome
      rw [← String.length_utf8EncodeChar] at hlt
      exact (completes_utf8EncodeChar c).decodeFrom_beginning hprefix hlt fun _ => hsome
  have hinner : decodeFrom none (encode inner ++ tail) = inner ++ decodeFrom none tail := by
    induction inner with
    | nil => rfl
    | cons d ds ih =>
      rw [encode_cons, List.append_assoc,
        (completes_utf8EncodeChar d).decodeFrom_append, ih, List.cons_append]
  rw [decode, ← htail, ← hinner]
  induction head with
  | nil => rfl
  | cons b head ih =>
    obtain ⟨hb, hhead⟩ := List.forall_mem_cons.mp hhead
    rw [List.cons_append, decodeFrom_cons, next, begin?_of_isContinuation hb, ih hhead,
      List.length_cons, List.replicate_succ]
    rfl

theorem length_eq (h : IsParted bytes head inner tail) :
    bytes.length = head.length + (size inner + tail.length) := by
  rw [h.eq_append, List.length_append, List.length_append, length_encode]

/-- The bytes by which a part is longer once it is read: two for each byte before the whole
characters, and what the bytes after them are short of three. -/
def growth (head tail : List UInt8) : ℕ :=
  2 * head.length + if tail = [] then 0 else 3 - tail.length

theorem size_decode (h : IsParted bytes head inner tail) :
    size (decode bytes) = bytes.length + growth head tail := by
  have hrep : replacement.utf8Size = 3 := by decide
  have hreplicate (n : ℕ) : size (List.replicate n replacement) = 3 * n := by
    induction n with
    | zero => rfl
    | succ n ih =>
      rw [List.replicate_succ, size_cons, ih, hrep]
      omega
  obtain ⟨c, -, hlt⟩ := h.isUnfinished
  have hfour : c.utf8Size ≤ 4 := Char.utf8Size_le_four c
  rw [h.decode_eq, h.length_eq, growth, size_append, size_append, hreplicate]
  split
  · rename_i hnone
    rw [hnone]
    simp only [size_nil, List.length_nil]
    omega
  · simp only [size_cons, size_nil, hrep]
    omega

end IsParted

end StackScript.Text
