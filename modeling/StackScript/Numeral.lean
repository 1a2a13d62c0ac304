/-!
# Numerals

Whole numbers in positional notation.

* `digits` writes a number in a base of at most sixteen, `ofDigits` reads it back
  (`ofDigits_digits`); `decimal` writes a signed number in base ten.
* `leadingInt` reads the number at the beginning of a text, its base told by its first characters,
  as a word of 32 bits. It holds the magnitude digit by digit (`heldDigits`).
-/

namespace StackScript.Numeral

/-- The value of a digit: `0` to `9`, then letters of either case up to fifteen. -/
def digitValue (c : Char) : Option Nat :=
  if '0' ≤ c ∧ c ≤ '9' then some (c.toNat - '0'.toNat)
  else if 'a' ≤ c ∧ c ≤ 'f' then some (c.toNat - 'a'.toNat + 10)
  else if 'A' ≤ c ∧ c ≤ 'F' then some (c.toNat - 'A'.toNat + 10)
  else none

/-- Whether a character is a digit in a base. -/
def isDigit (base : Nat) (c : Char) : Bool := (digitValue c).any (· < base)

/-- The number that digits write. -/
def ofDigits (base : Nat) (cs : List Char) : Nat :=
  cs.foldl (fun n c => n * base + (digitValue c).getD 0) 0

/-- The digits of a number without leading zeros, letters small; zero is one digit. -/
def digits (base n : Nat) : List Char := Nat.toDigits base n

/-- A digit in capitals. -/
def upperDigits (cs : List Char) : List Char := cs.map Char.toUpper

/-- A signed number in base ten. -/
def decimal (n : Int) : List Char :=
  if n < 0 then '-' :: digits 10 n.natAbs else digits 10 n.natAbs

/-- A number in base ten as a text. -/
def decimalText (n : Int) : String := String.ofList (decimal n)

/-- Zeros before the characters so that there are at least `n`. -/
def padZeros (n : Nat) (cs : List Char) : List Char := List.replicate (n - cs.length) '0' ++ cs

theorem length_padZeros (n : Nat) (cs : List Char) : (padZeros n cs).length = max n cs.length := by
  simp only [padZeros, List.length_append, List.length_replicate]
  omega

theorem digitValue_digitChar {d : Nat} (h : d < 16) : digitValue d.digitChar = some d := by
  revert d
  decide

/-- The digits of a number are digits of the base. -/
theorem isDigit_of_mem_digits {base n : Nat} {c : Char} (h : 1 < base) (h' : base ≤ 16)
    (hc : c ∈ digits base n) : isDigit base c = true := by
  induction n using Nat.strongRecOn with
  | _ n ih =>
    have digit : ∀ {d : Nat}, d < base → isDigit base d.digitChar = true := fun hd => by
      simp [isDigit, digitValue_digitChar (Nat.lt_of_lt_of_le hd h'), hd]
    rw [digits, Nat.toDigits_eq_if h] at hc
    split at hc
    · rename_i hn
      obtain rfl := List.mem_singleton.mp hc
      exact digit hn
    · rcases List.mem_append.mp hc with hc | hc
      · exact ih _ (Nat.div_lt_self (by omega) h) hc
      · obtain rfl := List.mem_singleton.mp hc
        exact digit (Nat.mod_lt _ (by omega))

/-- The digits of a number are read back. -/
theorem ofDigits_digits {base : Nat} (h : 1 < base) (h' : base ≤ 16) (n : Nat) :
    ofDigits base (digits base n) = n := by
  induction n using Nat.strongRecOn with
  | _ n ih =>
    rw [digits, Nat.toDigits_eq_if h]
    split
    · rename_i hn
      simp [ofDigits, digitValue_digitChar (Nat.lt_of_lt_of_le hn h')]
    · have hm : n % base < 16 := Nat.lt_of_lt_of_le (Nat.mod_lt _ (by omega)) h'
      have hd := ih _ (Nat.div_lt_self (by omega) h)
      rw [ofDigits, List.foldl_append, ← digits, ← ofDigits, hd]
      simp only [List.foldl_cons, List.foldl_nil, digitValue_digitChar hm, Option.getD_some]
      exact Nat.div_add_mod' n base

/-! ## Reading -/

/-- The characters skipped before a number: blank, tab, line feed, vertical tab, form feed and
carriage return. -/
def isSpace (c : Char) : Bool := c == ' ' || ('\t' ≤ c && c ≤ '\r')

/-- Whether the number has a minus sign, and what follows an optional sign. -/
def splitSign : List Char → Bool × List Char
  | '-' :: cs => (true, cs)
  | '+' :: cs => (false, cs)
  | cs => (false, cs)

/-- The base that the first characters tell, and what follows its mark: sixteen after `0x` before a
digit of that base, eight after any other `0`, else ten. -/
def splitBase : List Char → Nat × List Char
  | '0' :: x :: d :: cs =>
    if (x = 'x' ∨ x = 'X') ∧ isDigit 16 d then (16, d :: cs) else (8, '0' :: x :: d :: cs)
  | '0' :: cs => (8, '0' :: cs)
  | cs => (10, cs)

/-- The greatest magnitude that a number read from a text keeps. -/
def maxMagnitude : Nat := 0x7FFFFFFFFFFFFFFF

/-- A magnitude with one more digit after it, held at `maxMagnitude` after each operation. -/
def holdDigit (base n : Nat) (c : Char) : Nat :=
  min (min (n * base) maxMagnitude + (digitValue c).getD 0) maxMagnitude

/-- The number that digits write, held at `maxMagnitude` digit by digit. -/
def heldDigits (base : Nat) (cs : List Char) : Nat := cs.foldl (holdDigit base) 0

/-- The number at the beginning of a text, zero if there is none: spaces are skipped, a sign and a
mark of the base may come first, the magnitude is held at `maxMagnitude`, and the low 32 bits
remain. -/
def leadingInt (text : String) : Int32 :=
  let (negative, cs) := splitSign (text.toList.dropWhile isSpace)
  let (base, cs) := splitBase cs
  let magnitude : Int := heldDigits base (cs.takeWhile (isDigit base))
  Int32.ofInt (if negative then -magnitude else magnitude)

/-- The number that a whole nonempty text of digits writes. -/
def natOf? (base : Nat) (cs : List Char) : Option Nat :=
  if cs ≠ [] ∧ cs.all (isDigit base) then some (ofDigits base cs) else none

/-- The number below `bound` that a whole text writes in a base; a plus sign may come first. -/
def natBelow? (bound base : Nat) (cs : List Char) : Option Nat :=
  let cs := match cs with
    | '+' :: ds => ds
    | ds => ds
  (natOf? base cs).filter (· < bound)

/-- The 32-bit number that a whole text writes in base ten; a sign may come first. -/
def int32Of? (cs : List Char) : Option Int32 :=
  let (negative, ds) := splitSign cs
  match natOf? 10 ds with
  | none => none
  | some n =>
    let value : Int := if negative then -n else n
    if Int32.minValue.toInt ≤ value ∧ value ≤ Int32.maxValue.toInt then some (Int32.ofInt value)
    else none

end StackScript.Numeral
