import StackScript.Proofs.Machine.CallOrder
import StackScript.Proofs.Single.Narrow

/-!
# Quotients

A quotient tests its divisor as a float and divides integers as words.

* `Single.isZero_ofInt_iff`: an integer that is rounded to a zero is zero, since one is nearer to
  any other. So the test finds the divisors that are zero (`Value.isZero_iff`).
* `divBy` takes the quotient with a division of words that may be any action; with the one of the
  machine it is `stepDiv` (`stepDiv_eq_divBy`). The `divBy_*` lemmas tell where the division is
  asked, and with which words.
* `toNat_divUnsigned`: the quotient of two words.
* `div_run` is the statement for programs.
-/

namespace StackScript

open Number

namespace Single

open Layout

/-- A natural number that is not zero is nearer to one than to zero. -/
theorem ratioBits_eq_zero_iff {n : ℕ} : ratioBits n 1 = 0 ↔ n = 0 := by
  constructor
  · intro h
    have hnear := isNearest_ratioBits n Nat.one_pos
    rw [h, Nat.cast_one, div_one] at hnear
    have hone : single.value (127 * single.unit) = 1 := single.value_mul_unit 126
    have hdist := hnear.nearest (127 * single.unit) (by decide)
    rw [hone, single.value_zero, sub_zero, Nat.abs_cast] at hdist
    by_contra hn
    have hpos : (1 : ℚ) ≤ n := by exact_mod_cast Nat.one_le_iff_ne_zero.mpr hn
    rw [abs_of_nonneg (sub_nonneg.mpr hpos)] at hdist
    linarith
  · rintro rfl
    rfl

/-- No integer but zero is rounded to a zero. -/
theorem isZero_ofInt_iff {n : ℤ} : (ofInt n).isZero = true ↔ n = 0 := by
  rw [ofInt, ofRatio_eq, isZero, magnitudeBits_ofParts (ratioBits_le _ Nat.one_pos), beq_iff_eq,
    ratioBits_eq_zero_iff, Int.natAbs_eq_zero]

end Single

namespace Value

/-- A number that is zero: the integer, or a float of either sign. -/
inductive IsZero : Value → Prop
  | int : IsZero (.int 0)
  | float (negative : Bool) : IsZero (.float (.zero negative))

/-- A number is zero where the float that it is read as is zero. -/
theorem isZero_iff {v : Value} {y : Single} (h : v.single? = some y) :
    y.isZero = true ↔ v.IsZero := by
  cases v with
  | int n =>
    obtain rfl : Single.ofInt n.toInt = y := Option.some.inj h
    rw [Single.isZero_ofInt_iff, ← Int32.toInt_zero, Int32.toInt_inj]
    constructor
    · rintro rfl
      exact .int
    · rintro ⟨⟩
      rfl
  | float x =>
    obtain rfl : x = y := Option.some.inj h
    rw [Single.isZero_iff]
    obtain ⟨bits⟩ := x
    constructor
    · rintro (rfl | rfl)
      · exact .float false
      · exact .float true
    · rintro ⟨⟩
      rename_i negative
      cases negative with
      | false => exact .inl rfl
      | true => exact .inr rfl
  | string handle | pointer address => cases h

end Value

namespace Machine

variable {m : Machine} {stack : List Value} {dividend divisor : Value} {a b : Int32} {x y : Single}

/-! ## The division of words as an action -/

/-- A quotient, for whose words the division is an action. -/
def divBy (divide : Int32 → Int32 → Action Int32) : Action Unit := do
  let divisor ← pop
  let dividend ← pop
  let d ← ofExcept divisor.asFloat
  if d.isZero then
    log "Division by zero"
    pushInt 0
  else if dividend.isFloat || divisor.isFloat then
    pushFloat ((← ofExcept dividend.asFloat).div d)
  else
    let a ← ofExcept dividend.asInt
    let b ← ofExcept divisor.asInt
    pushInt (← divide a b)

theorem stepDiv_eq_divBy : stepDiv = divBy fun a b => pure (divUnsigned a b) := rfl

/-- The value on top of the stack is taken from it. -/
theorem pop_of_stack {α : Type} {v : Value} (h : m.stack = v :: stack) (f : Value → Action α) :
    (pop >>= f) m = f v (m.on stack) := by
  have hm : m.on (v :: stack) = m := by rw [← h, on_self]
  rw [← hm]
  exact pop_run v f

section

variable (divide : Int32 → Int32 → Action Int32)

/-- By a zero nothing is divided, whatever the dividend is. -/
theorem divBy_zero (hstack : m.stack = divisor :: dividend :: stack) (hy : divisor.single? = some y)
    (hz : divisor.IsZero) (hr : stack.length < m.capacity) :
    divBy divide m =
      .ok () { m with stack := .int 0 :: stack, debug := m.debug.push "Division by zero" } := by
  rw [divBy, pop_of_stack hstack, pop_run, asFloat_run hy, if_pos ((Value.isZero_iff hy).mpr hz),
    log_run]
  exact push_run _ hr

/-- Integers are divided as words. -/
theorem divBy_int (hstack : m.stack = .int b :: .int a :: stack) (hb : b ≠ 0) :
    divBy divide m = (divide a b >>= pushInt) (m.on stack) := by
  have hy : (Value.int b).single? = some (.ofInt b.toInt) := rfl
  have hz : ¬ (Value.int b).IsZero := by
    rintro ⟨⟩
    exact hb rfl
  rw [divBy, pop_of_stack hstack, pop_run, asFloat_run hy,
    if_neg (mt (Value.isZero_iff hy).mp hz)]
  rfl

/-- With a float among the operands, floats are divided. -/
theorem divBy_float (hstack : m.stack = divisor :: dividend :: stack)
    (hx : dividend.single? = some x) (hy : divisor.single? = some y) (hz : ¬ divisor.IsZero)
    (hf : dividend.isFloat ∨ divisor.isFloat) (hr : stack.length < m.capacity) :
    divBy divide m = .ok () (m.on (.float (x.div y) :: stack)) := by
  rw [divBy, pop_of_stack hstack, pop_run, asFloat_run hy,
    if_neg (mt (Value.isZero_iff hy).mp hz), if_pos (Bool.or_eq_true_iff.mpr hf), asFloat_run hx]
  exact push_run _ hr

/-- What is no number is not divided. -/
theorem divBy_mismatch (hstack : m.stack = divisor :: dividend :: stack)
    (hx : dividend.single? = none) (hy : divisor.single? = some y) (hz : ¬ divisor.IsZero) :
    divBy divide m = .error (.typeMismatch "number" dividend.kind) (m.on stack) := by
  rw [divBy, pop_of_stack hstack, pop_run, asFloat_run hy,
    if_neg (mt (Value.isZero_iff hy).mp hz)]
  cases dividend with
  | int n | float x => cases hx
  | string handle | pointer address => cases divisor <;> rfl

end

/-- The quotient of two words, and what is left. -/
theorem toNat_divUnsigned (a b : Int32) :
    a.toUInt32.toNat = (divUnsigned a b).toUInt32.toNat * b.toUInt32.toNat +
      a.toUInt32.toNat % b.toUInt32.toNat := by
  rw [divUnsigned, UInt32.toUInt32_toInt32, UInt32.toNat_div, Nat.div_add_mod']

/-! ## Programs -/

/-- A program that takes a quotient goes on with this machine, and no words are divided: it would be
the same with any other division. -/
def Undivided (m m' : Machine) : Prop :=
  execute Opcode.div.code m = .ok () m' ∧ ∀ divide, divBy divide m = .ok () m'

theorem undivided_of_forall {m' : Machine} (hs : m.stopped = none)
    (h : ∀ divide, divBy divide m = .ok () m') : Undivided m m' := by
  have hstep : step .div m = .ok () m' := h fun a b => pure (divUnsigned a b)
  exact ⟨execute_run hs hstep, h⟩

/-- A quotient by a number, in a program that runs and has room for the result. By a zero of either
kind and sign it is the integer 0 and one line is logged. Integers by any other integer are divided
as words, by a word that is not zero, once. With a float among two numbers it is a float, and no
words are divided; nor are they where the dividend is no number. -/
theorem div_run {rest : List Value} (hs : m.stopped = none)
    (hstack : m.stack = divisor :: dividend :: rest) (hroom : rest.length < m.capacity)
    (hy : divisor.single? = some y) :
    step .div = (divBy fun a b => pure (divUnsigned a b)) ∧
      (divisor.IsZero → Undivided m
        { m with stack := .int 0 :: rest, debug := m.debug.push "Division by zero" }) ∧
      (∀ a b, dividend = .int a → divisor = .int b → b ≠ 0 →
        b.toUInt32 ≠ 0 ∧
        (∀ divide, divBy divide m = (divide a b >>= pushInt) { m with stack := rest }) ∧
        ∃ (q : Int32) (r : ℕ),
          execute Opcode.div.code m = .ok () { m with stack := .int q :: rest } ∧
          a.toUInt32.toNat = q.toUInt32.toNat * b.toUInt32.toNat + r ∧ r < b.toUInt32.toNat) ∧
      (∀ x, dividend.single? = some x → ¬ divisor.IsZero → dividend.isFloat ∨ divisor.isFloat →
        Undivided m { m with stack := .float (x.div y) :: rest }) ∧
      (¬ divisor.IsZero → dividend.single? = none → ∀ divide, divBy divide m =
        .error (.typeMismatch "number" dividend.kind) { m with stack := rest }) := by
  refine ⟨stepDiv_eq_divBy, ?_, ?_, ?_, ?_⟩
  · exact fun hz => undivided_of_forall hs fun divide => divBy_zero divide hstack hy hz hroom
  · rintro a b rfl rfl hb
    have hword : b.toUInt32 ≠ 0 := by
      intro h
      rw [← Int32.toInt32_toUInt32 b, h] at hb
      exact hb rfl
    have hpush : push (.int (divUnsigned a b)) (m.on rest) =
        .ok () { m with stack := .int (divUnsigned a b) :: rest } := push_run _ hroom
    have hstep : step .div m = .ok () { m with stack := .int (divUnsigned a b) :: rest } :=
      (divBy_int (fun a b => pure (divUnsigned a b)) hstack hb).trans hpush
    have hpos : 0 < b.toUInt32.toNat :=
      Nat.pos_of_ne_zero fun h => hword (UInt32.toNat_inj.mp h)
    exact ⟨hword, fun divide => divBy_int divide hstack hb, divUnsigned a b, _,
      execute_run hs hstep, toNat_divUnsigned a b, Nat.mod_lt _ hpos⟩
  · intro x hx hz hf
    exact undivided_of_forall hs fun divide => divBy_float divide hstack hx hy hz hf hroom
  · exact fun hz hx divide => divBy_mismatch divide hstack hx hy hz

/-- The greatest word is halved, and an object is not divided by a negative zero. -/
theorem div_run_signs :
    let m : Machine := { stack := [.int 2, .int (-1)], capacity := 2 }
    let m' : Machine := { stack := [.float (.zero true), .pointer 5], capacity := 2 }
    (∃ q : Int32, execute Opcode.div.code m = .ok () { m with stack := [.int q] } ∧
      q.toUInt32.toNat = 0x7FFFFFFF) ∧
      Undivided m' { m' with stack := [.int 0], debug := #["Division by zero"] } := by
  intro m m'
  obtain ⟨-, -, hint, -⟩ := div_run (m := m) rfl rfl (by decide) rfl
  obtain ⟨-, -, q, r, hrun, heq, hlt⟩ := hint (-1) 2 rfl rfl (by decide)
  have ha : (-1 : Int32).toUInt32.toNat = 0xFFFFFFFF := rfl
  have hb : (2 : Int32).toUInt32.toNat = 2 := rfl
  rw [hb] at hlt
  rw [ha, hb] at heq
  obtain ⟨-, hzero, -⟩ := div_run (m := m') rfl rfl (by decide) rfl
  exact ⟨⟨q, hrun, by omega⟩, hzero (.float true)⟩

end Machine

end StackScript
