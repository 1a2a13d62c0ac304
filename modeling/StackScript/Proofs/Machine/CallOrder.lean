import StackScript.Proofs.Machine.Meaning
import StackScript.Proofs.Machine.Signature

/-!
# Arguments arrive in the order of the call

Arguments are put on the stack from left to right and taken from right to left. An operation of two
or more arguments computes its meaning (`Opcode.meaning`, `Operation.meaning`) for all that, and
leaves its results above the old stack.

* The `*_run` lemmas say what one stack operation does to a machine whose stack is written out.
* `computes_of_takes` is about opcodes, `performs_of_takes` about operations with their arguments on
  the stack, `callNamed_run` about calls by name.
* `call_order` is the statement for programs.
-/

namespace StackScript

open Text Numeral

namespace Machine

variable {m : Machine} {stack : List Value} {α : Type}

/-! ## Running on a stack -/

theorem interned_on (m : Machine) (stack : List Value) (text : String) :
    (m.on stack).interned text = ((m.interned text).1.on stack, (m.interned text).2) := by
  unfold interned
  have hs : (m.on stack).strings = m.strings := rfl
  rw [hs]
  split <;> rfl

theorem pop_run (v : Value) (f : Value → Action α) :
    (pop >>= f) (m.on (v :: stack)) = f v (m.on stack) := rfl

theorem popInt_run {v : Value} {n : Int32} (h : v.int? = some n) (f : Int32 → Action α) :
    (popInt >>= f) (m.on (v :: stack)) = f n (m.on stack) := by
  cases v with
  | int n | float x =>
    cases h
    rfl
  | string handle | pointer address => cases h

theorem popFloat_run {v : Value} {x : Single} (h : v.single? = some x) (f : Single → Action α) :
    (popFloat >>= f) (m.on (v :: stack)) = f x (m.on stack) := by
  cases v with
  | int n | float x =>
    cases h
    rfl
  | string handle | pointer address => cases h

theorem textOf_run {handle : UInt32} {text : String} (h : m.text? handle = some text)
    (f : String → Action α) : (textOf handle >>= f) (m.on stack) = f text (m.on stack) := by
  have ht : (m.on stack).text? handle = some text := h
  simp only [Bind.bind, EStateM.bind, textOf, ht]

theorem popText_run {v : Value} {text : String} (h : m.textNamed? v = some text)
    (f : String → Action α) : (popText >>= f) (m.on (v :: stack)) = f text (m.on stack) := by
  cases v with
  | string handle =>
    rw [popText, bind_assoc, pop_run]
    exact textOf_run h f
  | int n | float x | pointer address => cases h

theorem popMany_run (vs : List Value) (f : List Value → Action α) :
    (popMany vs.length >>= f) (m.on (vs.reverse ++ stack)) = f vs (m.on stack) := by
  have h : popMany vs.length (m.on (vs.reverse ++ stack)) = .ok vs (m.on stack) :=
    popMany_of_stack rfl
  simp only [Bind.bind, EStateM.bind, h]

theorem asInt_run {v : Value} {n : Int32} (h : v.int? = some n) (f : Int32 → Action α) :
    ((ofExcept v.asInt : Action Int32) >>= f) m = f n m := by
  cases v with
  | int n | float x =>
    cases h
    rfl
  | string handle | pointer address => cases h

theorem asFloat_run {v : Value} {x : Single} (h : v.single? = some x) (f : Single → Action α) :
    ((ofExcept v.asFloat : Action Single) >>= f) m = f x m := by
  cases v with
  | int n | float x =>
    cases h
    rfl
  | string handle | pointer address => cases h

theorem push_run (v : Value) (h : stack.length < m.capacity) :
    push v (m.on stack) = .ok () (m.on (v :: stack)) := push_of_lt v h

theorem pushText_run (text : String) (h : stack.length < m.capacity) :
    pushText text (m.on stack) =
      .ok () ((m.interned text).1.on ((m.interned text).2 :: stack)) := by
  simp only [pushText, Bind.bind, EStateM.bind, intern_eq, interned_on]
  exact push_run _ (by rwa [capacity_interned])

theorem log_run (line : String) (f : Unit → Action α) :
    (log line >>= f) (m.on stack) =
      f () (({ m with debug := m.debug.push line } : Machine).on stack) := rfl

theorem createArray_run (length : Int32) (f : Int32 → Action α) :
    (createArray length >>= f) (m.on stack) =
      f (m.arrays.create length).2
        (({ m with arrays := (m.arrays.create length).1 } : Machine).on stack) := rfl

theorem pushMany_run (vs : List Value) (h : stack.length + vs.length ≤ m.capacity)
    (f : Unit → Action α) :
    (pushMany vs >>= f) (m.on stack) = f () (m.on (vs.reverse ++ stack)) := by
  have hp : pushMany vs (m.on stack) = .ok () (m.on (vs.reverse ++ stack)) := pushMany_of_le h
  simp only [Bind.bind, EStateM.bind, hp]

/-- Where arguments lay, there is room for a result. -/
theorem length_lt_of_room {v : Value} {vs : List Value}
    (h : stack.length + (v :: vs).length ≤ m.capacity) : stack.length < m.capacity := by
  rw [List.length_cons] at h
  omega

/-- A part of a meaning that is there. -/
theorem bind_of_some {β : Type} {x : Option α} {a : α} (h : x = some a) (f : α → Option β) :
    (x >>= f) = f a := by
  rw [h]
  rfl

/-! ## Opcodes -/

/-- With these arguments on top of any stack that has room for them, the opcode leaves its
meaning. -/
def Computes (m : Machine) (op : Opcode) (args : List Value) : Prop :=
  ∃ m' results, op.meaning m args = some (m', results) ∧
    ∀ stack : List Value, stack.length + args.length ≤ m.capacity →
      step op (m.on (args.reverse ++ stack)) = .ok () (m'.on (results ++ stack))

theorem computes_arctan {y x : Value} (hy : m.IsOf y .number) (hx : m.IsOf x .number) :
    m.Computes .arctan [y, x] := by
  obtain ⟨-, a, -, ha⟩ := exists_of_number hy
  obtain ⟨-, b, -, hb⟩ := exists_of_number hx
  refine ⟨m, [.float (a.atan2 b)], ?_, fun stack hr => ?_⟩
  · exact (bind_of_some ha _).trans (bind_of_some hb _)
  · show stepArctan (m.on (x :: y :: stack)) = _
    rw [stepArctan, popFloat_run hb, popFloat_run ha]
    exact push_run _ (length_lt_of_room hr)

theorem computes_power {base degree : Value} (hb : m.IsOf base .number)
    (hd : m.IsOf degree .number) : m.Computes .power [base, degree] := by
  obtain ⟨-, b, -, hb⟩ := exists_of_number hb
  obtain ⟨-, d, -, hd⟩ := exists_of_number hd
  refine ⟨m, [if base.isInt && degree.isInt then .int (b.pow d).toInt else .float (b.pow d)], ?_,
    fun stack hr => ?_⟩
  · exact (bind_of_some hb _).trans (bind_of_some hd _)
  · show stepPower (m.on (degree :: base :: stack)) = _
    rw [stepPower, pop_run, pop_run, asFloat_run hb, asFloat_run hd]
    by_cases hi : base.isInt && degree.isInt
    · rw [if_pos hi, if_pos hi]
      exact push_run _ (length_lt_of_room hr)
    · rw [if_neg hi, if_neg hi]
      exact push_run _ (length_lt_of_room hr)

/-- A divisor of zero decides before the dividend is looked at. -/
theorem computes_div {dividend divisor : Value} (ha : m.IsOf dividend .number)
    (hb : m.IsOf divisor .number) : m.Computes .div [dividend, divisor] := by
  have hf : (dividend.isFloat || divisor.isFloat) = !(dividend.isInt && divisor.isInt) := by
    rw [isFloat_of_number ha, isFloat_of_number hb, Bool.not_and]
  obtain ⟨a, x, ha, hx⟩ := exists_of_number ha
  obtain ⟨b, y, hb, hy⟩ := exists_of_number hb
  by_cases hz : y.isZero
  · refine ⟨{ m with debug := m.debug.push "Division by zero" }, [.int 0], ?_, fun stack hr => ?_⟩
    · exact (bind_of_some hy _).trans (if_pos hz)
    · show stepDiv (m.on (divisor :: dividend :: stack)) = _
      rw [stepDiv, pop_run, pop_run, asFloat_run hy, if_pos hz, log_run]
      exact push_run _ (length_lt_of_room hr)
  cases hi : dividend.isInt && divisor.isInt with
  | true =>
    rw [hi] at hf
    refine ⟨m, [.int (divUnsigned a b)], ?_, fun stack hr => ?_⟩
    · refine (bind_of_some hy _).trans ?_
      rw [if_neg hz, if_pos hi, bind_of_some ha, bind_of_some hb]
      rfl
    · show stepDiv (m.on (divisor :: dividend :: stack)) = _
      rw [stepDiv, pop_run, pop_run, asFloat_run hy, if_neg hz, if_neg (by simp [hf]),
        asInt_run ha, asInt_run hb]
      exact push_run _ (length_lt_of_room hr)
  | false =>
    rw [hi] at hf
    refine ⟨m, [.float (x.div y)], ?_, fun stack hr => ?_⟩
    · refine (bind_of_some hy _).trans ?_
      rw [if_neg hz, if_neg (by simp [hi]), bind_of_some hx]
      rfl
    · show stepDiv (m.on (divisor :: dividend :: stack)) = _
      rw [stepDiv, pop_run, pop_run, asFloat_run hy, if_neg hz, if_pos (by simp [hf]),
        asFloat_run hx]
      exact push_run _ (length_lt_of_room hr)

theorem computes_substr {text start length : Value} (ht : m.IsOf text .text)
    (hs : m.IsOf start .number) (hl : m.IsOf length .number) :
    m.Computes .substr [text, start, length] := by
  obtain ⟨t, ht⟩ := exists_of_text ht
  obtain ⟨s, -, hs, -⟩ := exists_of_number hs
  obtain ⟨l, -, hl, -⟩ := exists_of_number hl
  refine ⟨(m.interned (slice t s l)).1, [(m.interned (slice t s l)).2], ?_, fun stack hr => ?_⟩
  · exact (bind_of_some ht _).trans ((bind_of_some hs _).trans (bind_of_some hl _))
  · show stepSubstr (m.on (length :: start :: text :: stack)) = _
    rw [stepSubstr, popInt_run hl, popInt_run hs, popText_run ht]
    exact pushText_run _ (length_lt_of_room hr)

theorem computes_sprintf {template : Value} (value : Value) (ht : m.IsOf template .text) :
    m.Computes .sprintf [template, value] := by
  obtain ⟨t, ht⟩ := exists_of_text ht
  refine ⟨(m.interned (Format.format m.text? t [value])).1,
    [(m.interned (Format.format m.text? t [value])).2], ?_, fun stack hr => ?_⟩
  · exact bind_of_some ht _
  · show stepSprintf (m.on (value :: template :: stack)) = _
    rw [stepSprintf, pop_run, popText_run ht]
    exact pushText_run _ (length_lt_of_room hr)

theorem computes_setArray {id : Value} (key value : Value) (hid : m.IsOf id .number) :
    m.Computes .setArray [id, key, value] := by
  obtain ⟨n, -, hn, -⟩ := exists_of_number hid
  refine ⟨{ m with arrays := m.arrays.set n key value }, [], ?_, fun stack hr => ?_⟩
  · exact bind_of_some hn _
  · show stepSetArray (m.on (value :: key :: id :: stack)) = _
    rw [stepSetArray, pop_run, pop_run, popInt_run hn]
    rfl

theorem computes_getArray {id : Value} (key : Value) (hid : m.IsOf id .number) :
    m.Computes .getArray [id, key] := by
  cases id with
  | int n | float x =>
    refine ⟨m, _, rfl, fun stack hr => ?_⟩
    exact push_run _ (length_lt_of_room hr)
  | string handle | pointer address => rcases hid with h | h <;> cases h

theorem computes_getArray_text {text position : Value} (ht : m.IsOf text .text)
    (hp : m.IsOf position .integer) : m.Computes .getArray [text, position] := by
  obtain ⟨t, ht⟩ := exists_of_text ht
  cases position with
  | float x | string handle | pointer address => cases hp
  | int n =>
    cases text with
    | int n | float x | pointer address => cases ht
    | string handle =>
      have hh : m.text? handle = some t := ht
      refine ⟨(m.interned (byteAt t n)).1, [(m.interned (byteAt t n)).2], ?_, fun stack hr => ?_⟩
      · exact bind_of_some hh _
      · show stepGetArray (m.on (.int n :: .string handle :: stack)) = _
        rw [stepGetArray, pop_run, pop_run]
        exact (textOf_run hh _).trans (pushText_run _ (length_lt_of_room hr))

theorem computes_tempArray {length flags : Value} (hl : m.IsOf length .number)
    (hf : m.IsOf flags .number) : m.Computes .tempArray [length, flags] := by
  obtain ⟨n, -, hn, -⟩ := exists_of_number hl
  obtain ⟨f, -, hf, -⟩ := exists_of_number hf
  refine ⟨{ m with arrays := (m.arrays.create n).1 }, [.int (m.arrays.create n).2], ?_,
    fun stack hr => ?_⟩
  · exact bind_of_some hn _
  · show stepTempArray (m.on (flags :: length :: stack)) = _
    rw [stepTempArray, popInt_run hf, popInt_run hn, createArray_run]
    exact push_run _ (length_lt_of_room hr)

theorem computes_arrayKey {id position : Value} (hid : m.IsOf id .number)
    (hp : m.IsOf position .number) : m.Computes .arrayKey [id, position] := by
  obtain ⟨n, -, hn, -⟩ := exists_of_number hid
  obtain ⟨p, -, hp, -⟩ := exists_of_number hp
  refine ⟨m, [m.arrayKey n p], ?_, fun stack hr => ?_⟩
  · exact (bind_of_some hn _).trans (bind_of_some hp _)
  · show stepArrayKey (m.on (position :: id :: stack)) = _
    rw [stepArrayKey, popInt_run hp, popInt_run hn]
    exact push_run _ (length_lt_of_room hr)

/-- An opcode of two or more arguments computes its meaning. -/
theorem computes_of_takes {op : Opcode} {args : List Value} (h : m.Takes op.signatures args) :
    m.Computes op args := by
  cases op with
  | arctan =>
    obtain ⟨y, x, rfl, hy, hx⟩ := takes_pair h
    exact computes_arctan hy hx
  | power =>
    obtain ⟨base, degree, rfl, hb, hd⟩ := takes_pair h
    exact computes_power hb hd
  | div =>
    obtain ⟨dividend, divisor, rfl, ha, hb⟩ := takes_pair h
    exact computes_div ha hb
  | substr =>
    obtain ⟨text, start, length, rfl, ht, hs, hl⟩ := takes_triple h
    exact computes_substr ht hs hl
  | sprintf =>
    obtain ⟨template, value, rfl, ht, -⟩ := takes_pair h
    exact computes_sprintf value ht
  | setArray =>
    obtain ⟨id, key, value, rfl, hid, -, -⟩ := takes_triple h
    exact computes_setArray key value hid
  | getArray =>
    rcases takes_or h with h | h
    · obtain ⟨id, key, rfl, hid, -⟩ := takes_pair h
      exact computes_getArray key hid
    · obtain ⟨text, position, rfl, ht, hp⟩ := takes_pair h
      exact computes_getArray_text ht hp
  | tempArray =>
    obtain ⟨length, flags, rfl, hl, hf⟩ := takes_pair h
    exact computes_tempArray hl hf
  | arrayKey =>
    obtain ⟨id, position, rfl, hid, hp⟩ := takes_pair h
    exact computes_arrayKey hid hp
  | _ => exact absurd h (not_takes_nil args)

end Machine

open Machine

/-! ## Named operations -/

namespace Operation

variable {m : Machine} {stack : List Value}

/-- With these arguments on top of any stack that has room for them, the operation leaves its
meaning. -/
def Performs (m : Machine) (op : Operation) (args : List Value) : Prop :=
  ∃ m' result, op.meaning m args = some (m', result) ∧
    ∀ stack : List Value, stack.length + args.length ≤ m.capacity →
      op.run args.length (m.on (args.reverse ++ stack)) = .ok () (m'.on (result :: stack))

theorem storePairs_run (id : Int32) (settings : List (String × String)) :
    storePairs id settings (m.on stack) =
      .ok () ((settings.foldl (withSetting id) m).on stack) := by
  induction settings generalizing m with
  | nil => rfl
  | cons setting settings ih =>
    rw [List.foldl_cons, ← ih]
    simp only [storePairs, Bind.bind, EStateM.bind, intern_eq, interned_on]
    rfl

theorem capacity_withSettings (id : Int32) (settings : List (String × String)) (m : Machine) :
    (settings.foldl (withSetting id) m).capacity = m.capacity := by
  induction settings generalizing m with
  | nil => rfl
  | cons setting settings ih =>
    rw [List.foldl_cons, ih]
    show ((m.interned setting.1).1.interned setting.2).1.capacity = m.capacity
    rw [capacity_interned, capacity_interned]

theorem settingText_run {v : Value} {text : String} (h : writtenText? m v = some text)
    {α : Type} (f : String → Action α) :
    (settingText v >>= f) (m.on stack) = f text (m.on stack) := by
  cases v with
  | string handle => exact textOf_run h f
  | int n | float x =>
    cases h
    rfl
  | pointer address => cases h

theorem settingsOf_eq (m : Machine) (stack : List Value) (file : String) :
    settingsOf file (m.on stack) =
      .ok ((m.settings.load m.disk file).toOption.getD {}) (m.on stack) := by
  have hl : (m.on stack).settings.load (m.on stack).disk file = m.settings.load m.disk file := rfl
  simp only [settingsOf, Bind.bind, EStateM.bind, MonadState.get, getThe, MonadStateOf.get,
    EStateM.get, hl]
  cases m.settings.load m.disk file <;> rfl

theorem settingsUnder_eq (m : Machine) (file heading : String) :
    settingsUnder m file heading =
      ((((m.settings.load m.disk file).toOption.getD {}).sections.get? heading).getD {}).entries := by
  unfold settingsUnder
  cases m.settings.load m.disk file <;> rfl

/-- The settings of a section go into a map, which is left on top. -/
theorem storeSettings_run (id : Int32) (file heading : String) (hr : stack.length < m.capacity) :
    (do
      let c ← settingsOf file
      storePairs id ((c.sections.get? heading).getD {}).entries
      pushInt id : Action Unit) (m.on stack) =
      .ok () (((settingsUnder m file heading).foldl (withSetting id) m).on (.int id :: stack)) := by
  simp only [Bind.bind, EStateM.bind, settingsOf_eq, storePairs_run, ← settingsUnder_eq]
  exact push_run _ (by rwa [capacity_withSettings])

theorem performs_iniSection {file heading : Value} (hf : m.IsOf file .text)
    (hh : m.IsOf heading .text) : Performs m .iniSection [file, heading] := by
  obtain ⟨f, hf⟩ := exists_of_text hf
  obtain ⟨h, hh⟩ := exists_of_text hh
  refine ⟨_, _, (bind_of_some hf _).trans (bind_of_some hh _), fun stack hr => ?_⟩
  show runIniSection (m.on (heading :: file :: stack)) = _
  rw [runIniSection, popText_run hh, popText_run hf, createArray_run]
  exact storeSettings_run _ f h (length_lt_of_room hr)

theorem performs_setIni {name value : Value} (hn : m.IsOf name .text)
    (hv : m.IsOf value .written) : Performs m .setIni [name, value] := by
  obtain ⟨n, hn⟩ := exists_of_text hn
  obtain ⟨t, ht⟩ := exists_of_written hv
  refine ⟨afterWrite m n t, .int (-1), ?_, fun stack hr => ?_⟩
  · exact (bind_of_some hn _).trans (bind_of_some ht _)
  · show runSetIni (m.on (value :: name :: stack)) = _
    rw [runSetIni, pop_run, popText_run hn, settingText_run ht]
    have hw : (m.on stack).settings.write (m.on stack).disk n t = m.settings.write m.disk n t :=
      rfl
    simp only [Bind.bind, EStateM.bind, writeSetting, hw, afterWrite]
    rcases m.settings.write m.disk n t with ⟨e | u, disk⟩
    · exact push_run (m := { m with disk, debug := _ }) _ (length_lt_of_room hr)
    · exact push_run (m := { m with disk }) _ (length_lt_of_room hr)

theorem compareUnder_run {a b : Value} {s t : String} (ha : m.textNamed? a = some s)
    (hb : m.textNamed? b = some t) (page : Option Int32) (hr : stack.length < m.capacity) :
    compareUnder page (m.on (b :: a :: stack)) =
      .ok () (m.on (truth (match page with
        | some n => (CodePage.ofNumber n).equal s t
        | none => equalFold s t) :: stack)) := by
  rw [compareUnder, popText_run hb, popText_run ha]
  cases page <;> exact push_run _ hr

theorem performs_compare {a b : Value} (ha : m.IsOf a .text) (hb : m.IsOf b .text) :
    Performs m .compare [a, b] := by
  obtain ⟨s, hs⟩ := exists_of_text ha
  obtain ⟨t, ht⟩ := exists_of_text hb
  refine ⟨m, truth (equalFold s t), ?_, fun stack hr => ?_⟩
  · exact (bind_of_some hs _).trans (bind_of_some ht _)
  · exact compareUnder_run hs ht none (length_lt_of_room hr)

theorem performs_compare_page {a b page : Value} (ha : m.IsOf a .text) (hb : m.IsOf b .text)
    (hp : m.IsOf page .number) : Performs m .compare [a, b, page] := by
  obtain ⟨s, hs⟩ := exists_of_text ha
  obtain ⟨t, ht⟩ := exists_of_text hb
  obtain ⟨n, -, hn, -⟩ := exists_of_number hp
  refine ⟨m, truth ((CodePage.ofNumber n).equal s t), ?_, fun stack hr => ?_⟩
  · exact (bind_of_some hn _).trans ((bind_of_some hs _).trans (bind_of_some ht _))
  · show runCompare 3 (m.on (page :: b :: a :: stack)) = _
    rw [runCompare, if_pos rfl, map_eq_pure_bind, bind_assoc, popInt_run hn]
    exact compareUnder_run hs ht (some n) (length_lt_of_room hr)

theorem findFrom_run {h n : Value} {hay needle : String} (hh : m.textNamed? h = some hay)
    (hn : m.textNamed? n = some needle) (start : Int32) (hr : stack.length < m.capacity) :
    findFrom start (m.on (n :: h :: stack)) =
      .ok () ((place m hay needle start).1.on ((place m hay needle start).2 :: stack)) := by
  rw [findFrom, popText_run hn, popText_run hh]
  have h0 : start < 0 ↔ start.toInt < 0 := Int32.lt_iff_toInt_lt
  unfold place
  by_cases hin : 0 ≤ start.toInt ∧ start.toInt < size hay.toList
  · rw [if_neg (by rw [h0]; omega), if_pos hin]
    cases indexFrom hay needle start.toInt.toNat with
    | some i => exact push_run _ hr
    | none => exact push_run _ hr
  · rw [if_pos (by rw [h0]; omega), if_neg hin, log_run]
    exact push_run _ hr

theorem performs_find {hay needle : Value} (hh : m.IsOf hay .text) (hn : m.IsOf needle .text) :
    Performs m .find [hay, needle] := by
  obtain ⟨h, hh⟩ := exists_of_text hh
  obtain ⟨n, hn⟩ := exists_of_text hn
  refine ⟨(place m h n 0).1, (place m h n 0).2, ?_, fun stack hr => ?_⟩
  · exact (bind_of_some hh _).trans (bind_of_some hn _)
  · exact findFrom_run hh hn 0 (length_lt_of_room hr)

theorem performs_find_start {hay needle start : Value} (hh : m.IsOf hay .text)
    (hn : m.IsOf needle .text) (hs : m.IsOf start .number) :
    Performs m .find [hay, needle, start] := by
  obtain ⟨h, hh⟩ := exists_of_text hh
  obtain ⟨n, hn⟩ := exists_of_text hn
  obtain ⟨s, -, hs, -⟩ := exists_of_number hs
  refine ⟨(place m h n s).1, (place m h n s).2, ?_, fun stack hr => ?_⟩
  · exact (bind_of_some hh _).trans ((bind_of_some hn _).trans (bind_of_some hs _))
  · show runFind 3 (m.on (start :: needle :: hay :: stack)) = _
    rw [runFind, if_pos rfl, popInt_run hs]
    exact findFrom_run hh hn s (length_lt_of_room hr)

theorem performs_format {template : Value} (values : List Value) (ht : m.IsOf template .text) :
    Performs m .format (template :: values) := by
  obtain ⟨t, ht⟩ := exists_of_text ht
  refine ⟨(m.interned (Format.format m.text? t values)).1,
    (m.interned (Format.format m.text? t values)).2, ?_, fun stack hr => ?_⟩
  · exact bind_of_some ht _
  · show runFormat (values.length + 1) (m.on ((template :: values).reverse ++ stack)) = _
    rw [runFormat, Nat.add_sub_cancel, List.reverse_cons, List.append_assoc, popMany_run,
      List.singleton_append, popText_run ht]
    exact pushText_run _ (length_lt_of_room hr)

theorem performs_toCase {text case : Value} (ht : m.IsOf text .text) (hc : m.IsOf case .number) :
    Performs m .toCase [text, case] := by
  obtain ⟨t, ht⟩ := exists_of_text ht
  obtain ⟨n, -, hn, -⟩ := exists_of_number hc
  by_cases h1 : n = 1
  · refine ⟨(m.interned (raise t)).1, (m.interned (raise t)).2, ?_, fun stack hr => ?_⟩
    · exact (bind_of_some ht _).trans ((bind_of_some hn _).trans (if_pos h1))
    · show runToCase (m.on (case :: text :: stack)) = _
      rw [runToCase, popInt_run hn, popText_run ht, if_pos h1]
      exact pushText_run _ (length_lt_of_room hr)
  by_cases h0 : n = 0
  · refine ⟨(m.interned (fold t)).1, (m.interned (fold t)).2, ?_, fun stack hr => ?_⟩
    · exact (bind_of_some ht _).trans ((bind_of_some hn _).trans ((if_neg h1).trans (if_pos h0)))
    · show runToCase (m.on (case :: text :: stack)) = _
      rw [runToCase, popInt_run hn, popText_run ht, if_neg h1, if_pos h0]
      exact pushText_run _ (length_lt_of_room hr)
  let m₁ : Machine :=
    { m with debug := m.debug.push ("string_to_case: invalid case type " ++ decimalText n.toInt) }
  refine ⟨(m₁.interned t).1, (m₁.interned t).2, ?_, fun stack hr => ?_⟩
  · exact (bind_of_some ht _).trans ((bind_of_some hn _).trans ((if_neg h1).trans (if_neg h0)))
  · show runToCase (m.on (case :: text :: stack)) = _
    rw [runToCase, popInt_run hn, popText_run ht, if_neg h1, if_neg h0, log_run]
    exact pushText_run (m := m₁) _ (length_lt_of_room hr)

theorem exists_of_takes_format {args : List Value} (h : m.Takes format.signatures args) :
    ∃ template values, args = template :: values ∧ m.IsOf template .text ∧
      1 ≤ values.length ∧ values.length ≤ 7 := by
  obtain ⟨kinds, hk, hf⟩ := h
  obtain ⟨k, hlt, rfl⟩ := List.mem_map.mp hk
  rw [List.mem_range] at hlt
  obtain _ | ⟨ht, hvs⟩ := hf
  have hl := hvs.length_eq
  rw [List.length_replicate] at hl
  exact ⟨_, _, rfl, ht, by omega, by omega⟩

/-- An operation of two or more arguments performs its meaning, and takes that many. -/
theorem performs_of_takes {op : Operation} {args : List Value} (h : m.Takes op.signatures args) :
    op.accepts args.length ∧ Performs m op args := by
  cases op with
  | iniSection =>
    obtain ⟨file, heading, rfl, hf, hh⟩ := takes_pair h
    exact ⟨rfl, performs_iniSection hf hh⟩
  | setIni =>
    obtain ⟨name, value, rfl, hn, hv⟩ := takes_pair h
    exact ⟨rfl, performs_setIni hn hv⟩
  | compare =>
    rcases takes_or h with h | h
    · obtain ⟨a, b, rfl, ha, hb⟩ := takes_pair h
      exact ⟨rfl, performs_compare ha hb⟩
    · obtain ⟨a, b, page, rfl, ha, hb, hp⟩ := takes_triple h
      exact ⟨rfl, performs_compare_page ha hb hp⟩
  | find =>
    rcases takes_or h with h | h
    · obtain ⟨hay, needle, rfl, hh, hn⟩ := takes_pair h
      exact ⟨rfl, performs_find hh hn⟩
    · obtain ⟨hay, needle, start, rfl, hh, hn, hs⟩ := takes_triple h
      exact ⟨rfl, performs_find_start hh hn hs⟩
  | format =>
    obtain ⟨template, values, rfl, ht, h1, h7⟩ := exists_of_takes_format h
    refine ⟨?_, performs_format values ht⟩
    have h : 2 ≤ (template :: values).length ∧ (template :: values).length ≤ 8 := by
      rw [List.length_cons]
      omega
    simpa [accepts, minArgs, maxArgs] using h
  | toCase =>
    obtain ⟨text, case, rfl, ht, hc⟩ := takes_pair h
    exact ⟨rfl, performs_toCase ht hc⟩
  | floor | iniSections | table | known => exact absurd h (not_takes_nil args)

/-! ## Calls by name -/

theorem le_maxCallArgs {op : Operation} {args : Nat} (h : op.accepts args) :
    args ≤ maxCallArgs := by
  have hmax : op.maxArgs ≤ maxCallArgs := by cases op <;> decide
  simp only [accepts, Bool.and_eq_true, decide_eq_true_eq] at h
  omega

theorem resolve_name {op : Operation} {args : Nat} (h : op.accepts args) :
    resolve op.name args = .ok op := by
  simp only [resolve, ofName?_name, le_maxCallArgs h, h, and_self, if_true]

/-- An operation that leaves one result where its arguments lay is found balanced. -/
theorem runBalanced_run {op : Operation} {name : String} {args : List Value} {m' : Machine}
    {result : Value}
    (h : op.run args.length (m.on (args.reverse ++ stack)) = .ok () (m'.on (result :: stack))) :
    runBalanced op name args.length (m.on (args.reverse ++ stack)) =
      .ok () (m'.on (result :: stack)) := by
  have hd : (m'.on (result :: stack)).depth =
      (m.on (args.reverse ++ stack)).depth - args.length + 1 := by
    simp
  simp only [runBalanced, Bind.bind, EStateM.bind, MonadState.get, getThe, MonadStateOf.get,
    EStateM.get, h, hd, ne_eq, not_true, if_false]
  rfl

/-- A call with the name below the arguments does what the operation does without it. -/
theorem call_run {op : Operation} {args : List Value} {name : Value} {m' : Machine}
    {result : Value} (hn : m.textNamed? name = some op.name) (ha : op.accepts args.length)
    (hr : stack.length + args.length ≤ m.capacity)
    (h : op.run args.length (m.on (args.reverse ++ stack)) = .ok () (m'.on (result :: stack))) :
    call args.length (m.on (args.reverse ++ name :: stack)) = .ok () (m'.on (result :: stack)) := by
  rw [call, popMany_run, popText_run hn, pushMany_run args hr, resolve_name ha]
  exact runBalanced_run h

end Operation

namespace Machine

variable {m : Machine}

/-- A running program does an opcode that succeeds. -/
theorem execute_run {op : Opcode} {m₁ m₂ : Machine} (hs : m₁.stopped = none)
    (h : step op m₁ = .ok () m₂) : execute op.code m₁ = .ok () m₂ := by
  simp only [execute, hs, stepCode, Opcode.ofCode?_code, h]

/-- A call by name computes the operation's meaning, once the name is in the table. -/
theorem callNamed_run {op : Operation} {args : List Value} (hs : m.stopped = none)
    (ht : m.Takes op.signatures args) (hh : m.HasHandle op.name)
    (hr : m.depth + args.length + 1 ≤ m.capacity) :
    ∃ m' result, op.meaning (m.interned op.name).1 args = some (m', result) ∧
      callNamed op.name args m = .ok () (m'.on (result :: m.stack)) := by
  obtain ⟨ha, m', result, hm, hrun⟩ := Operation.performs_of_takes (ht.interned op.name)
  refine ⟨m', result, hm, ?_⟩
  have hname := textNamed?_interned hh
  have hc := capacity_interned m op.name
  have hs₁ : (m.interned op.name).1.stopped = none := (stopped_interned m op.name).trans hs
  rw [depth] at hr
  have hpush : pushText op.name (m.on m.stack) = _ := pushText_run op.name (by omega)
  rw [on_self] at hpush
  generalize m.interned op.name = p at *
  have hlt : args.length < 9 := Nat.lt_succ_of_le (Operation.le_maxCallArgs ha)
  have hargs : pushMany args (p.1.on (p.2 :: m.stack)) =
      .ok () (p.1.on (args.reverse ++ p.2 :: m.stack)) :=
    pushMany_of_le (by simp only [on_stack, on_capacity, List.length_cons]; omega)
  have hcall := Operation.call_run hname ha (by omega) (hrun m.stack (by omega))
  have hstep : execute (Opcode.call ⟨args.length, hlt⟩).code
      (p.1.on (args.reverse ++ p.2 :: m.stack)) = .ok () (m'.on (result :: m.stack)) :=
    execute_run hs₁ hcall
  simp only [callNamed, Opcode.ofArgs?, hlt, dif_pos, Bind.bind, EStateM.bind, hpush, hargs, hstep]

/-- In a running program, two or more arguments that are put on the stack from left to right come to
the opcode in that order: it leaves what it makes of them (`Opcode.meaning`) above the old stack. So
does the call of an operation by name (`Operation.meaning`). There must be room for the arguments,
and a call needs room for the name too: a place on the stack, and a handle for its place in the table
of texts, which it enters before the operation begins. -/
theorem call_order (hs : m.stopped = none) :
    (∀ (op : Opcode) args, m.Takes op.signatures args → m.depth + args.length ≤ m.capacity →
      ∃ m' results, op.meaning m args = some (m', results) ∧
        (pushMany args >>= fun _ => execute op.code) m = .ok () (m'.on (results ++ m.stack))) ∧
      ∀ (op : Operation) args, m.Takes op.signatures args → m.HasHandle op.name →
        m.depth + args.length + 1 ≤ m.capacity →
        ∃ m' result, op.meaning (m.interned op.name).1 args = some (m', result) ∧
          callNamed op.name args m = .ok () (m'.on (result :: m.stack)) := by
  refine ⟨fun op args ht hr => ?_, fun op args ht hh hr => callNamed_run hs ht hh hr⟩
  obtain ⟨m', results, hm, hrun⟩ := computes_of_takes ht
  refine ⟨m', results, hm, ?_⟩
  have hpush : pushMany args m = .ok () (m.on (args.reverse ++ m.stack)) := pushMany_of_le hr
  have hstep : execute op.code (m.on (args.reverse ++ m.stack)) =
      .ok () (m'.on (results ++ m.stack)) := execute_run hs (hrun m.stack hr)
  simp only [Bind.bind, EStateM.bind, hpush, hstep]

/-- A quotient, and the second place of one text in another, from a start between the two. -/
theorem call_order_find :
    let m : Machine := { stack := [.int 7], strings := #["banana", "an"] }
    let args : List Value := [.string 0, .string 1, .int 2]
    m.stopped = none ∧ m.HasHandle Operation.find.name ∧
      (pushMany [.int 9, .int 2] >>= fun _ => execute 0x827F) m = .ok () (m.on [.int 4, .int 7]) ∧
      ∃ m' : Machine, callNamed "string_find" args m = .ok () (m'.on [.int 3, .int 7]) := by
  intro m args
  have hh : m.HasHandle Operation.find.name := hasHandle_of_lt _ (by decide)
  have hpair : m.Takes Opcode.div.signatures [.int 9, .int 2] :=
    ⟨[.number, .number], by decide, .cons (.inl rfl) (.cons (.inl rfl) .nil)⟩
  have htriple : m.Takes Operation.find.signatures args :=
    ⟨[.text, .text, .number], by decide, .cons rfl (.cons rfl (.cons (.inl rfl) .nil))⟩
  have hquotient : Opcode.div.meaning m [.int 9, .int 2] = some (m, [.int 4]) := by rfl
  have hhay : (m.interned Operation.find.name).1.textNamed? (.string 0) = some "banana" :=
    textNamed?_interned_of_textNamed? _ rfl
  have hneedle : (m.interned Operation.find.name).1.textNamed? (.string 1) = some "an" :=
    textNamed?_interned_of_textNamed? _ rfl
  have hplace : Operation.find.meaning (m.interned Operation.find.name).1 args =
      some ((m.interned Operation.find.name).1, .int 3) :=
    (bind_of_some hhay _).trans ((bind_of_some hneedle _).trans rfl)
  obtain ⟨hop, hcall⟩ := call_order (m := m) rfl
  obtain ⟨m₁, results, hm₁, hrun₁⟩ := hop .div _ hpair (by decide)
  obtain ⟨m₂, result, hm₂, hrun₂⟩ := hcall .find args htriple hh (by decide)
  rw [hquotient] at hm₁
  rw [hplace] at hm₂
  cases hm₁
  cases hm₂
  exact ⟨rfl, hh, hrun₁, _, hrun₂⟩

end Machine

end StackScript
