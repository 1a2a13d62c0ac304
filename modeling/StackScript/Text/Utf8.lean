/-!
# Texts as bytes

A text is measured, cut and indexed by the bytes of its UTF-8 form.

* `encode` gives the bytes of a list of characters, `size` counts them (`length_encode`).
* `cut n` keeps the longest beginning of at most `n` bytes that ends between two characters
  (`size_cut_le`, `cut_append_drop`).
* `decode` reads any bytes back, with `replacement` for each longest piece that begins no character.
-/

namespace StackScript.Text

/-- The UTF-8 bytes of the characters. -/
def encode (cs : List Char) : List UInt8 := cs.flatMap String.utf8EncodeChar

/-- The number of UTF-8 bytes of the characters. -/
def size : List Char → Nat
  | [] => 0
  | c :: cs => c.utf8Size + size cs

@[simp] theorem encode_nil : encode [] = [] := rfl

@[simp] theorem encode_cons (c : Char) (cs : List Char) :
    encode (c :: cs) = String.utf8EncodeChar c ++ encode cs := rfl

@[simp] theorem encode_append (cs ds : List Char) : encode (cs ++ ds) = encode cs ++ encode ds :=
  List.flatMap_append

@[simp] theorem size_nil : size [] = 0 := rfl

@[simp] theorem size_cons (c : Char) (cs : List Char) : size (c :: cs) = c.utf8Size + size cs := rfl

@[simp] theorem size_append (cs ds : List Char) : size (cs ++ ds) = size cs + size ds := by
  induction cs with
  | nil => simp
  | cons c cs ih => simp [ih, Nat.add_assoc]

theorem size_replicate {c : Char} (h : c.utf8Size = 1) (n : Nat) :
    size (List.replicate n c) = n := by
  induction n with
  | zero => rfl
  | succ n ih => simp [List.replicate_succ, ih, h, Nat.add_comm]

/-- `size` counts the bytes that `encode` gives. -/
theorem length_encode (cs : List Char) : (encode cs).length = size cs := by
  induction cs with
  | nil => rfl
  | cons c cs ih => simp [ih]

/-! ## Cutting -/

/-- The longest beginning of at most `n` bytes that ends between two characters. -/
def cut : Nat → List Char → List Char
  | _, [] => []
  | n, c :: cs => if c.utf8Size ≤ n then c :: cut (n - c.utf8Size) cs else []

/-- A cut text fits. -/
theorem size_cut_le (n : Nat) (cs : List Char) : size (cut n cs) ≤ n := by
  induction cs generalizing n with
  | nil => simp [cut]
  | cons c cs ih =>
    unfold cut
    split
    · have := ih (n - c.utf8Size)
      simp only [size_cons]
      omega
    · simp

/-- A cut text is a beginning of the text. -/
theorem cut_append_drop (n : Nat) (cs : List Char) :
    cut n cs ++ cs.drop (cut n cs).length = cs := by
  induction cs generalizing n with
  | nil => simp [cut]
  | cons c cs ih =>
    unfold cut
    split
    · simp [ih]
    · simp

/-- A text that fits is not cut. -/
theorem cut_eq_self {n : Nat} {cs : List Char} (h : size cs ≤ n) : cut n cs = cs := by
  induction cs generalizing n with
  | nil => rfl
  | cons c cs ih =>
    simp only [size_cons] at h
    rw [cut, if_pos (by omega), ih (by omega)]

/-- The first `n` bytes of a text, cut back to the end of a character. -/
def truncate (text : String) (n : Nat) : String := String.ofList (cut n text.toList)

/-! ## Reading bytes -/

/-- Stands for bytes that are no character. -/
def replacement : Char := '\uFFFD'

/-- A character of which some bytes are still to come: the bits read so far, the number of bytes
still to come, and the range in which the next of them lies. -/
structure Pending where
  value : Nat
  left : Nat
  low : UInt8
  high : UInt8

/-- What a first byte begins: a whole character, a longer one, or none. The ranges leave out
overlong forms, surrogates and values above the last character. -/
inductive Lead where
  | whole (c : Char)
  | opens (p : Pending)
  | invalid

/-- Classifies a byte at which a character may begin. -/
def Lead.ofByte (b : UInt8) : Lead :=
  if b < 0x80 then .whole (Char.ofNat b.toNat)
  else if b < 0xC2 then .invalid
  else if b < 0xE0 then .opens ⟨b.toNat - 0xC0, 1, 0x80, 0xBF⟩
  else if b < 0xF0 then
    .opens ⟨b.toNat - 0xE0, 2, if b = 0xE0 then 0xA0 else 0x80, if b = 0xED then 0x9F else 0xBF⟩
  else if b < 0xF5 then
    .opens ⟨b.toNat - 0xF0, 3, if b = 0xF0 then 0x90 else 0x80, if b = 0xF4 then 0x8F else 0xBF⟩
  else .invalid

/-- Reads a byte at which a character may begin: the characters it completes and the one it
leaves open. -/
def begin? (b : UInt8) : List Char × Option Pending :=
  match Lead.ofByte b with
  | .whole c => ([c], none)
  | .opens p => ([], some p)
  | .invalid => ([replacement], none)

/-- Reads a byte after an open character. A byte outside the range ends that character as
`replacement` and begins another. -/
def Pending.feed (p : Pending) (b : UInt8) : List Char × Option Pending :=
  if p.low ≤ b ∧ b ≤ p.high then
    let value := p.value * 64 + (b.toNat - 0x80)
    if p.left ≤ 1 then ([Char.ofNat value], none)
    else ([], some ⟨value, p.left - 1, 0x80, 0xBF⟩)
  else
    let (cs, next) := begin? b
    (replacement :: cs, next)

/-- Reads bytes after a character that may be open. -/
def decodeFrom : Option Pending → List UInt8 → List Char
  | none, [] => []
  | some _, [] => [replacement]
  | none, b :: bs =>
    let (cs, next) := begin? b
    cs ++ decodeFrom next bs
  | some p, b :: bs =>
    let (cs, next) := p.feed b
    cs ++ decodeFrom next bs

/-- The text that bytes spell, `replacement` standing for each longest piece that begins no
character or leaves one unfinished. -/
def decode (bs : List UInt8) : List Char := decodeFrom none bs

end StackScript.Text
