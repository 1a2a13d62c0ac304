import StackScript.Proofs.Machine.Changes
import StackScript.Proofs.Machine.Fault

/-!
# Files and arrays are left alone

An opcode changes the files and the arrays only where it should: a file only by the operation that
writes settings, an array that is there only by the opcode that sets an element, and then only the
array that it is given.

* `call_cases` and `stepSetArray_cases` say what a call and the opcode for elements do, whatever
  lies on the stack: a call runs the operation that is named below its arguments.
* `framed_step` puts them together with the changes of the other opcodes, `framed_execute` and
  `framed_callNamed` carry it to programs and to calls by name.
* `execute_setIni_of_error`: a setting that is not written is logged, whatever is left of its file.
* `execute_frame` is the statement for programs.
-/

namespace StackScript

namespace Machine

variable {m : Machine}

/-! ## Calls -/

theorem popMany_of_lt {n : Nat} (h : m.stack.length < n) :
    ∃ e, popMany n m = .error e (m.on []) := by
  induction n generalizing m with
  | zero => cases h
  | succ n ih =>
    cases hs : m.stack with
    | nil =>
      refine ⟨.stackUnderflow, ?_⟩
      have hm : m.on [] = m := by rw [← hs, on_self]
      simp only [popMany, Bind.bind, EStateM.bind, pop_nil hs, hm]
    | cons v vs =>
      rw [hs, List.length_cons] at h
      obtain ⟨e, he⟩ := ih (m := m.on vs) (Nat.lt_of_succ_lt_succ h)
      refine ⟨e, ?_⟩
      have hp : pop m = .ok v (m.on vs) := pop_cons hs
      simp only [popMany, Bind.bind, EStateM.bind, hp, he]
      rfl

theorem popText_of_none {v : Value} {below : List Value} (h : m.textNamed? v = none) :
    ∃ e, popText (m.on (v :: below)) = .error e (m.on below) := by
  cases v with
  | string handle =>
    have ht : (m.on below).text? handle = none := h
    refine ⟨.invalidHandle handle, ?_⟩
    show textOf handle (m.on below) = _
    simp only [textOf, ht]
  | int n | float x | pointer address => exact ⟨_, rfl⟩

theorem name_of_resolve {name : String} {args : Nat} {op : Operation}
    (h : resolve name args = .ok op) : op.name = name := by
  unfold resolve at h
  cases hop : Operation.ofName? name with
  | none =>
    rw [hop] at h
    cases h
  | some found =>
    rw [hop] at h
    dsimp only at h
    split at h
    · obtain rfl := Except.ok.inj h
      simpa using List.find?_some hop
    · cases h

variable {args below : List Value} {name : Value} {text : String}

/-- A call with its name and its arguments on the stack, and room for these: the name is looked up
and taken away. -/
theorem call_eq_resolve (hn : m.textNamed? name = some text)
    (hr : args.length ≤ (m.on below).room) :
    call args.length (m.on (args.reverse ++ name :: below)) =
      ((ofExcept (resolve text args.length) : Action Operation) >>= fun op =>
        runBalanced op text args.length) (m.on (args.reverse ++ below)) := by
  rw [call, popMany_run, popText_run hn]
  simp only [Bind.bind, EStateM.bind, pushMany_eq, if_pos hr]
  rfl

/-- A call fails where there is no name below the arguments. -/
theorem call_of_nameless (hn : m.textNamed? name = none) :
    ∃ e, call args.length (m.on (args.reverse ++ name :: below)) = .error e (m.on below) := by
  obtain ⟨e, he⟩ : ∃ e, popText (m.on (name :: below)) = .error e (m.on below) :=
    popText_of_none hn
  refine ⟨e, ?_⟩
  rw [call, popMany_run]
  simp only [Bind.bind, EStateM.bind, he]

/-- A call fails where the arguments find no room any more. -/
theorem call_of_full (hn : m.textNamed? name = some text)
    (hr : ¬ args.length ≤ (m.on below).room) :
    ∃ e stack, call args.length (m.on (args.reverse ++ name :: below)) = .error e (m.on stack) := by
  refine ⟨.stackOverflow m.capacity, (args.take (m.on below).room).reverse ++ below, ?_⟩
  rw [call, popMany_run, popText_run hn]
  simp only [Bind.bind, EStateM.bind, pushMany_eq, if_neg hr]
  rfl

/-- A call fails and leaves another stack, or does what the operation does that is named below the
arguments. -/
theorem call_cases (n : Nat) (m : Machine) :
    (∃ e stack, call n m = .error e (m.on stack)) ∨
      ∃ (op : Operation) (values : List Value) (name : Value) (below : List Value),
        values.length = n ∧ m.stack = values.reverse ++ name :: below ∧
        m.textNamed? name = some op.name ∧
        call n m = runBalanced op op.name n (m.on (values.reverse ++ below)) := by
  rcases Nat.lt_or_ge m.stack.length n with hlt | hge
  · obtain ⟨e, he⟩ := popMany_of_lt hlt
    exact .inl ⟨e, [], by simp only [call, Bind.bind, EStateM.bind, he]⟩
  obtain ⟨values, rest, rfl, hs⟩ : ∃ values rest : List Value,
      values.length = n ∧ m.stack = values.reverse ++ rest :=
    ⟨(m.stack.take n).reverse, m.stack.drop n, by simp [hge], by simp⟩
  have hm : m.on (values.reverse ++ rest) = m := by rw [← hs, on_self]
  cases rest with
  | nil =>
    have hcall : call values.length (m.on (values.reverse ++ [])) =
        .error .stackUnderflow (m.on []) := by
      rw [call, popMany_run]
      rfl
    rw [hm] at hcall
    exact .inl ⟨_, [], hcall⟩
  | cons name below =>
    cases ht : m.textNamed? name with
    | none =>
      obtain ⟨e, hcall⟩ : ∃ e, call values.length (m.on (values.reverse ++ name :: below)) =
          .error e (m.on below) := call_of_nameless ht
      rw [hm] at hcall
      exact .inl ⟨e, below, hcall⟩
    | some text =>
      by_cases hr : values.length ≤ (m.on below).room
      · have hcall := call_eq_resolve ht hr
        rw [hm] at hcall
        cases hres : resolve text values.length with
        | error e =>
          rw [hres] at hcall
          exact .inl ⟨e, _, hcall⟩
        | ok op =>
          rw [hres] at hcall
          obtain rfl := name_of_resolve hres
          exact .inr ⟨op, values, name, below, rfl, hs, ht, hcall⟩
      · have hcall := call_of_full ht hr
        rw [hm] at hcall
        exact .inl hcall

theorem within_call (args : Nat) (m : Machine) :
    (after (call args m)).holdings = m.holdings ∨
      ∃ (op : Operation) (values : List Value) (name : Value) (below : List Value),
        values.length = args ∧ m.stack = values.reverse ++ name :: below ∧
        m.textNamed? name = some op.name ∧
        op.change m.holdings (after (call args m)).holdings := by
  rcases call_cases args m with ⟨e, stack, hcall⟩ | ⟨op, values, name, below, hl, hs, hn, hcall⟩
  · rw [hcall]
    exact .inl rfl
  · rw [hcall]
    rcases (op.makes_runBalanced op.name args (m.on (values.reverse ++ below))).within with h | h
    · exact .inl h
    · exact .inr ⟨op, values, name, below, hl, hs, hn, h⟩

/-- An element is set in the array that is the lowest operand, or the opcode fails. -/
theorem stepSetArray_cases (m : Machine) :
    (∃ e stack, stepSetArray m = .error e (m.on stack)) ∨
      ∃ (value key target : Value) (below : List Value) (id : Int32),
        m.stack = value :: key :: target :: below ∧ target.int? = some id ∧
        stepSetArray m = .ok () { m with stack := below, arrays := m.arrays.set id key value } := by
  have hm : m = m.on m.stack := rfl
  rw [hm]
  rcases m.stack with _ | ⟨value, _ | ⟨key, _ | ⟨target, below⟩⟩⟩
  · exact .inl ⟨.stackUnderflow, [], rfl⟩
  · exact .inl ⟨.stackUnderflow, [], rfl⟩
  · exact .inl ⟨.stackUnderflow, [], rfl⟩
  · cases target with
    | int n | float x => exact .inr ⟨value, key, _, below, _, rfl, rfl, rfl⟩
    | string handle | pointer address => exact .inl ⟨_, below, rfl⟩

/-! ## Opcodes -/

theorem callArgs?_ofCode? (args : Fin 9) :
    (Opcode.ofCode? (Opcode.call args).code).bind Opcode.callArgs? = some args.val := by
  rw [Opcode.ofCode?_code]
  rfl

/-- An opcode calls the operation with a name, which lies below the arguments on the stack. -/
def Calls (m : Machine) (code : UInt16) (name : String) (args : List Value) : Prop :=
  (Opcode.ofCode? code).bind Opcode.callArgs? = some args.length ∧
    ∃ v below, m.stack = args.reverse ++ v :: below ∧ m.textNamed? v = some name

/-- An opcode sets an element of the array with a number, which is its lowest operand. -/
def SetsIn (m : Machine) (code : UInt16) (id : Int32) : Prop :=
  code = Opcode.setArray.code ∧ ∃ value key target below,
    m.stack = value :: key :: target :: below ∧ target.int? = some id

/-- What is left of the files and the arrays: one file is written if writing is allowed, one array
is added, or elements are set in one array for which this is allowed. -/
structure Framed (writes : Prop) (sets : Int32 → Prop) (m m' : Machine) : Prop where
  files : m'.disk = m.disk ∨ writes ∧ ∃ l bytes, m'.disk = m.disk.put l bytes
  arrays : m'.arrays = m.arrays ∨ (∃ a, m'.arrays.arrays = m.arrays.arrays.push a) ∨
    ∃ id, sets id ∧ m'.arrays.count = m.arrays.count ∧
      ∀ i, ArrayStore.slot? id ≠ some i → m'.arrays.arrays[i]? = m.arrays.arrays[i]?

/-- The frame of an opcode: it writes a file only as a call of the one operation that does so, and
sets elements only of the array that it is given. -/
def FramedBy (m : Machine) (code : UInt16) (m' : Machine) : Prop :=
  Framed (∃ args, m.Calls code "set_ini_setting" args) (m.SetsIn code) m m'

variable {writes : Prop} {sets : Int32 → Prop} {code : UInt16} {m' : Machine}

theorem framed_of_holdings (h : m'.holdings = m.holdings) : Framed writes sets m m' :=
  ⟨.inl (congrArg Prod.snd h), .inl (congrArg Prod.fst h)⟩

theorem Framed.congr {k k' : Machine} (h : Framed writes sets m m') (hk : k.holdings = m.holdings)
    (hk' : k'.holdings = m'.holdings) : Framed writes sets k k' := by
  have hdisk : k.disk = m.disk := congrArg Prod.snd hk
  have hdisk' : k'.disk = m'.disk := congrArg Prod.snd hk'
  have harrays : k.arrays = m.arrays := congrArg Prod.fst hk
  have harrays' : k'.arrays = m'.arrays := congrArg Prod.fst hk'
  constructor
  · rw [hdisk, hdisk']
    exact h.files
  · rw [harrays, harrays']
    exact h.arrays

theorem Framed.mono {writes' : Prop} {sets' : Int32 → Prop} (h : Framed writes sets m m')
    (hw : writes → writes') (hs : ∀ id, sets id → sets' id) : Framed writes' sets' m m' :=
  ⟨h.files.imp_right (And.imp_left hw),
    h.arrays.imp_right (Or.imp_right (Exists.imp fun id => And.imp_left (hs id)))⟩

theorem framed_of_add (hm : m.arrays.count < UInt32.size) (h : Within .add m m') :
    Framed writes sets m m' := by
  rcases h with h | ⟨hdisk, ha⟩
  · exact framed_of_holdings h
  · exact ⟨.inl hdisk, .inr (.inl (ha hm))⟩

theorem framed_call (hm : m.arrays.count < UInt32.size) (args : Fin 9) :
    m.FramedBy (Opcode.call args).code (after (call args m)) := by
  rcases within_call args m with h | ⟨op, values, name, below, hl, hs, hn, h⟩
  · exact framed_of_holdings h
  · cases op with
    | iniSection | iniSections | table => exact framed_of_add hm (.inr h)
    | setIni =>
      have hcalls : m.Calls (Opcode.call args).code "set_ini_setting" values :=
        ⟨(callArgs?_ofCode? args).trans (congrArg some hl.symm), name, below, hs, hn⟩
      exact ⟨.inr ⟨⟨values, hcalls⟩, h.2⟩, .inl h.1⟩
    | floor | known | compare | find | format | toCase => exact h.elim

theorem framed_stepSetArray (m : Machine) :
    m.FramedBy Opcode.setArray.code (after (stepSetArray m)) := by
  rcases stepSetArray_cases m with ⟨e, stack, h⟩ | ⟨value, key, target, below, id, hs, hid, h⟩
  · rw [h]
    exact framed_of_holdings rfl
  · rw [h]
    have hsets : m.SetsIn Opcode.setArray.code id := ⟨rfl, value, key, target, below, hs, hid⟩
    refine ⟨.inl rfl, .inr (.inr ⟨id, hsets, ?_, fun i hi => ?_⟩)⟩
    · exact ArrayStore.count_set m.arrays id key value
    · exact ArrayStore.getElem?_set_of_slot?_ne hi key value

theorem framed_step (hm : m.arrays.count < UInt32.size) (op : Opcode) :
    m.FramedBy op.code (after (step op m)) := by
  by_cases hset : op = .setArray
  · subst hset
    exact framed_stepSetArray m
  by_cases hcall : ∃ args, op = .call args
  · obtain ⟨args, rfl⟩ := hcall
    exact framed_call hm args
  · have h := (makes_step op hset (not_exists.mp hcall) m).within
    by_cases hadd : op = .tempArray
    · subst hadd
      exact framed_of_add hm h
    · have hnone : op.change = .none := by
        cases op with
        | tempArray => exact absurd rfl hadd
        | _ => rfl
      rw [hnone] at h
      exact framed_of_holdings (h.resolve_right id)

theorem framed_stepCode (hm : m.arrays.count < UInt32.size) (code : UInt16) :
    m.FramedBy code (after (stepCode code m)) := by
  unfold stepCode
  cases hc : Opcode.ofCode? code with
  | some op =>
    obtain rfl := code_eq_of_ofCode? hc
    exact framed_step hm op
  | none => exact framed_of_holdings rfl

/-- That a program stops changes no file and no array. -/
theorem framed_execute (hm : m.arrays.count < UInt32.size) (code : UInt16) :
    m.FramedBy code (after (execute code m)) := by
  have h := framed_stepCode hm code
  unfold execute
  cases m.stopped with
  | some reason => exact framed_of_holdings rfl
  | none =>
    dsimp only
    cases hr : stepCode code m with
    | ok u m₁ =>
      rw [hr] at h
      exact h
    | error e m₁ =>
      rw [hr] at h
      refine h.congr rfl ?_
      show (if e.isFatal then m₁.stop e else m₁).holdings = m₁.holdings
      split <;> rfl

/-! ## Calls by name -/

theorem holdings_interned (m : Machine) (text : String) :
    (m.interned text).1.holdings = m.holdings := by
  obtain ⟨strings, h⟩ := exists_interned_eq m text
  rw [h]
  rfl

/-- The opcode that a call by name does finds the name there. -/
theorem eq_of_calls_interned {name text : String} {args args' below : List Value}
    (hh : m.HasHandle name) (ha : args.length < 9)
    (h : ((m.interned name).1.on (args.reverse ++ (m.interned name).2 :: below)).Calls
      (Opcode.call ⟨args.length, ha⟩).code text args') : name = text := by
  obtain ⟨hargs, v, below', hs, ht⟩ := h
  have hlength : args.length = args'.length :=
    Option.some.inj ((callArgs?_ofCode? ⟨args.length, ha⟩).symm.trans hargs)
  obtain ⟨-, hs⟩ := List.append_inj hs (by simpa using hlength)
  obtain ⟨rfl, -⟩ := List.cons.inj hs
  exact Option.some.inj ((textNamed?_interned hh).symm.trans ht)

theorem framed_callNamed {name : String} (hm : m.arrays.count < UInt32.size)
    (hh : m.HasHandle name) (args : List Value) :
    Framed (name = "set_ini_setting") (fun _ => False) m (after (callNamed name args m)) := by
  have hi := holdings_interned m name
  by_cases ha : args.length < 9
  · rw [callNamed_eq m name ha]
    simp only [Bind.bind, EStateM.bind, pushMany_eq]
    by_cases hr : ((m.interned name).2 :: args).length ≤ (m.interned name).1.room
    · rw [if_pos hr, List.reverse_cons, List.append_assoc, List.singleton_append]
      have hm' : (m.interned name).1.arrays.count < UInt32.size := by rwa [arrays_interned]
      have h := framed_execute (m := (m.interned name).1.on
        (args.reverse ++ (m.interned name).2 :: (m.interned name).1.stack)) hm'
        (Opcode.call ⟨args.length, ha⟩).code
      refine (h.mono ?_ ?_).congr hi.symm rfl
      · rintro ⟨args', h⟩
        exact eq_of_calls_interned hh ha h
      · rintro id ⟨hcode, -⟩
        have hop := (callArgs?_ofCode? ⟨args.length, ha⟩).symm
        rw [hcode, Opcode.ofCode?_code] at hop
        cases hop
    · rw [if_neg hr]
      exact framed_of_holdings hi
  · have hc : Opcode.ofArgs? args.length = none := dif_neg ha
    unfold callNamed
    rw [hc]
    exact framed_of_holdings rfl

/-! ## Settings that are not written -/

section Failed

variable {triplet value : Value} {t v : String} {e : Error} {d : Disk}

/-- A setting that is not written is logged, whatever is left of its file. -/
theorem afterWrite_of_error (h : m.settings.write m.disk t v = (.error e, d)) :
    ∃ line, Operation.afterWrite m t v = { m with disk := d, debug := m.debug.push line } := by
  rw [Operation.afterWrite, h]
  exact ⟨_, rfl⟩

theorem meaning_setIni (ht : m.textNamed? triplet = some t)
    (hv : Operation.writtenText? m value = some v) :
    Operation.setIni.meaning m [triplet, value] =
      some (Operation.afterWrite m t v, .int (-1)) :=
  (bind_of_some ht _).trans (bind_of_some hv _)

theorem isOf_written (h : Operation.writtenText? m value = some v) : m.IsOf value .written := by
  cases value with
  | int n => exact .inl rfl
  | float x => exact .inr (.inl rfl)
  | string handle => exact .inr (.inr (Option.isSome_iff_exists.mpr ⟨v, h⟩))
  | pointer address => cases h

theorem takes_setIni (ht : m.textNamed? triplet = some t)
    (hv : Operation.writtenText? m value = some v) :
    m.Takes Operation.setIni.signatures [triplet, value] :=
  takes_cons_iff.mpr (.inl (.cons (Option.isSome_iff_exists.mpr ⟨t, ht⟩)
    (.cons (isOf_written hv) .nil)))

theorem writtenText?_interned (h : Operation.writtenText? m value = some v) (text : String) :
    Operation.writtenText? (m.interned text).1 value = some v := by
  cases value with
  | int n | float x | pointer address => exact h
  | string handle => exact text?_intern_of_text? (intern_eq m text) h

/-- The opcode for two arguments logs a setting that it cannot write and leaves -1. -/
theorem execute_setIni_of_error {name : Value} {below : List Value} (hs : m.stopped = none)
    (hd : m.depth ≤ m.capacity) (hstack : m.stack = value :: triplet :: name :: below)
    (hn : m.textNamed? name = some "set_ini_setting") (ht : m.textNamed? triplet = some t)
    (hv : Operation.writtenText? m value = some v)
    (h : m.settings.write m.disk t v = (.error e, d)) :
    ∃ line, execute (Opcode.call 2).code m =
      .ok () { m with disk := d, stack := .int (-1) :: below, debug := m.debug.push line } := by
  obtain ⟨line, hw⟩ := afterWrite_of_error h
  obtain ⟨ha, m', result, hmeaning, hrun⟩ := Operation.performs_of_takes (takes_setIni ht hv)
  cases hmeaning.symm.trans (meaning_setIni ht hv)
  have hroom : below.length + [triplet, value].length ≤ m.capacity := by
    rw [depth, hstack] at hd
    simp only [List.length_cons, List.length_nil] at hd ⊢
    omega
  have hcall := Operation.call_run hn ha hroom (hrun below hroom)
  have hm : m = m.on ([triplet, value].reverse ++ name :: below) := by
    show m = m.on (value :: triplet :: name :: below)
    rw [← hstack, on_self]
  refine ⟨line, execute_run hs ?_⟩
  rw [hw, ← hm] at hcall
  exact hcall

theorem callNamed_setIni_of_error (hs : m.stopped = none) (hd : m.depth + 3 ≤ m.capacity)
    (hh : m.HasHandle "set_ini_setting") (ht : m.textNamed? triplet = some t)
    (hv : Operation.writtenText? m value = some v)
    (h : m.settings.write m.disk t v = (.error e, d)) :
    ∃ line strings, callNamed "set_ini_setting" [triplet, value] m =
      .ok () { m with
        disk := d, strings, stack := .int (-1) :: m.stack, debug := m.debug.push line } := by
  obtain ⟨m', result, hmeaning, hcall⟩ :=
    callNamed_run hs (takes_setIni ht hv) hh hd
  have ht' := textNamed?_interned_of_textNamed? "set_ini_setting" ht
  have hv' := writtenText?_interned hv "set_ini_setting"
  obtain ⟨strings, hi⟩ := exists_interned_eq m "set_ini_setting"
  cases hmeaning.symm.trans (meaning_setIni ht' hv')
  obtain ⟨line, hw⟩ := afterWrite_of_error (m := { m with strings }) h
  refine ⟨line, strings, ?_⟩
  have hname : Operation.setIni.name = "set_ini_setting" := rfl
  rw [hname, hi, hw] at hcall
  exact hcall

end Failed

/-- In any state of a program that has numbers for arrays, whatever comes of an opcode: no file
changes but one that the operation for settings writes, no array that is there changes but the one
in which the opcode for elements sets an element, and beside this at most one array is added. The
same holds of a call by name. A setting that is not written is logged in one line and leaves -1, and
the program runs on. No file changes if the name of the setting is malformed or no file can be
opened for it; a file that is open when the write fails is left with a part of its new text. -/
theorem execute_frame (hm : m.arrays.count < UInt32.size) :
    (∀ code, Framed (∃ args, m.Calls code "set_ini_setting" args) (m.SetsIn code) m
      (after (execute code m))) ∧
    (∀ name args, m.HasHandle name →
      Framed (name = "set_ini_setting") (fun _ => False) m (after (callNamed name args m))) ∧
    ∀ triplet value t v e d, m.textNamed? triplet = some t →
      Operation.writtenText? m value = some v →
      m.settings.write m.disk t v = (.error e, d) → m.stopped = none →
        (m.settings.Refuses m.disk t → d = m.disk) ∧
        (¬ m.settings.Refuses m.disk t → m.settings.CutShort m.disk t v d) ∧
        (∀ name below, m.stack = value :: triplet :: name :: below → m.depth ≤ m.capacity →
          m.textNamed? name = some "set_ini_setting" →
          ∃ line, execute (Opcode.call 2).code m =
            .ok () { m with
              disk := d, stack := .int (-1) :: below, debug := m.debug.push line }) ∧
        (m.depth + 3 ≤ m.capacity → m.HasHandle "set_ini_setting" →
          ∃ line strings, callNamed "set_ini_setting" [triplet, value] m =
            .ok () { m with
              disk := d, strings, stack := .int (-1) :: m.stack,
              debug := m.debug.push line }) := by
  refine ⟨framed_execute hm, fun name args hh => framed_callNamed hm hh args, ?_⟩
  intro triplet value t v e d ht hv h hs
  obtain ⟨hrefused, hcut⟩ := (SettingStore.write_eq_error_iff.mp h).leaves
  refine ⟨hrefused, hcut, fun name below hstack hd hn => ?_, fun hd hh => ?_⟩
  · exact execute_setIni_of_error hs hd hstack hn ht hv h
  · exact callNamed_setIni_of_error hs hd hh ht hv h

/-- A setting with a name of one part is logged, and the program runs on. -/
theorem execute_frame_malformed :
    let m : Machine :=
      { stack := [.int 5, .string 0, .string 1], capacity := 3,
        strings := #["nope", "set_ini_setting"] }
    m.arrays.count < UInt32.size ∧ m.settings.Refuses m.disk "nope" ∧
      ∃ line, execute 0x8278 m = .ok () { m with stack := [.int (-1)], debug := #[line] } := by
  intro m
  have hm : m.arrays.count < UInt32.size := by decide
  have hname : Triplet.parse "nope" = .error (.malformedTriplet "nope") := by decide +kernel
  have h : m.settings.Refuses m.disk "nope" := .inl ⟨_, hname⟩
  obtain ⟨-, -, hfailed⟩ := execute_frame hm
  obtain ⟨-, -, hcode, -⟩ := hfailed (.string 0) (.int 5) "nope" "5" _ _ rfl (by decide +kernel)
    (SettingStore.write_of_malformed hname) rfl
  have h2 : (Opcode.call 2).code = 0x8278 := by decide
  rw [h2] at hcode
  exact ⟨hm, h, hcode (.string 1) [] rfl (by decide) rfl⟩

/-- On a full disk a setting that is given another value is lost with all others of its file: the
call is logged and leaves -1, but the file is empty after it. A program that has stopped does not
log a name of one part, and leaves nothing for it. -/
theorem execute_setIni_loses :
    let full := ({ files := [(["a"], "[A]\nx=1\n".toUTF8)] } : Disk).full
    let m := Host.session (Host.fresh 3 {} full)
      [.pushText "set_ini_setting", .pushText "a|A|x", .push (.int 5)]
    let stopped := Host.session (Host.fresh 3 {} {})
      [.pushText "set_ini_setting", .pushText "nope", .push (.int 5), .stop (.script "x")]
    (∃ line lost, execute 0x8278 m =
        .ok () { m with disk := lost, stack := [.int (-1)], debug := #[line] } ∧
      m.disk.contents? ["a"] = some "[A]\nx=1\n".toUTF8 ∧ lost.contents? ["a"] = some .empty) ∧
    ∃ e, execute 0x8278 stopped = .error e stopped := by
  intro full m stopped
  have hm : m =
      { stack := [.int 5, .string 1, .string 0], capacity := 3,
        strings := #["set_ini_setting", "a|A|x"], disk := full } := by
    subst m
    generalize full = d
    cbv
  constructor
  · have ht : Triplet.parse "a|A|x" = .ok ⟨"a", "A", "x"⟩ := by decide +kernel
    have hopen : full.create (({} : SettingStore).locate full "a").1 = .ok ["a"] := by
      rw [SettingStore.fst_locate_of_base_none rfl]
      exact Disk.create_eq_ok_iff.mpr ⟨⟨by cbv, by decide, by cbv⟩, by decide⟩
    have hw := SettingStore.write_full ht hopen "5"
    obtain ⟨line, hrun⟩ : ∃ line, execute 0x8278 m =
        .ok () { m with
          disk := full.put ["a"] .empty, stack := [.int (-1)], debug := m.debug.push line } := by
      rw [hm]
      exact execute_setIni_of_error rfl (by decide) rfl rfl rfl (by decide +kernel) hw
    refine ⟨line, full.put ["a"] .empty, ?_, ?_, Disk.contents?_put_self _ _ _⟩
    · rw [hrun, hm]
      rfl
    · rw [hm]
      rfl
  · have hs : stopped.stopped = some (.script "x") := by
      subst stopped
      cbv
    refine ⟨.halted (.script "x"), ?_⟩
    rw [execute, hs]

end Machine

end StackScript
