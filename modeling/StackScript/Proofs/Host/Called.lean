import StackScript.Proofs.Host.Stopped
import StackScript.Proofs.Machine.CallOrder

/-!
# Calls that succeed

A named operation is called by its name, or by an opcode that finds the name and the arguments on
the stack. A call that succeeds has run the operation, on the arguments above what lay below them
and with nothing changed before but the table of texts.

* `callNamed_eq_ok_iff`, `call_eq_ok_iff`: the inversion of both kinds of calls.
* `exists_callNamed_iff`: when a call by name succeeds.
* `Called` is a call of either kind, `Called.run_eq_ok` what has run.
-/

namespace StackScript.Machine

variable {m m' : Machine} {op : Operation} {args below : List Value} {name : Value}

theorem execute_eq_ok_iff {op : Opcode} :
    execute op.code m = .ok () m' ↔ m.stopped = none ∧ step op m = .ok () m' := by
  refine ⟨fun h => ?_, fun h => execute_run h.1 h.2⟩
  cases hs : m.stopped with
  | some reason =>
    rw [execute_of_stopped hs] at h
    cases h
  | none =>
    simp only [execute, hs, stepCode, Opcode.ofCode?_code] at h
    cases hr : step op m with
    | ok u m₁ =>
      rw [hr] at h
      exact ⟨rfl, h⟩
    | error e m₁ =>
      rw [hr] at h
      cases h

/-- Values are put on the stack before more is done only if there is room for all. -/
theorem pushMany_bind_eq_ok_iff {vs : List Value} {f : Unit → Action Unit} :
    (pushMany vs >>= f) m = .ok () m' ↔
      vs.length ≤ m.room ∧ f () (m.on (vs.reverse ++ m.stack)) = .ok () m' := by
  simp only [Bind.bind, EStateM.bind, pushMany_eq]
  by_cases hr : vs.length ≤ m.room
  · rw [if_pos hr]
    exact ⟨fun h => ⟨hr, h⟩, fun h => h.2⟩
  · rw [if_neg hr]
    exact ⟨(nomatch ·), fun h => absurd h.1 hr⟩

theorem run_of_runBalanced {text : String} {n : Nat} (h : runBalanced op text n m = .ok () m') :
    op.run n m = .ok () m' := by
  simp only [runBalanced, Bind.bind, EStateM.bind, MonadState.get, getThe, MonadStateOf.get,
    EStateM.get] at h
  cases hr : op.run n m with
  | error e m₁ =>
    rw [hr] at h
    cases h
  | ok u m₁ =>
    rw [hr] at h
    dsimp only at h
    split at h
    · cases h
    · exact h

/-- The opcode of a call takes the name from below the arguments and runs the operation on them. -/
theorem call_eq_ok_iff (hn : m.textNamed? name = some op.name) (ha : op.accepts args.length) :
    call args.length (m.on (args.reverse ++ name :: below)) = .ok () m' ↔
      args.length ≤ (m.on below).room ∧
        runBalanced op op.name args.length (m.on (args.reverse ++ below)) = .ok () m' := by
  rw [call, popMany_run, popText_run hn, pushMany_bind_eq_ok_iff, Operation.resolve_name ha]
  rfl

/-- A call by name succeeds in a running program with room for the name and the arguments, if the
opcode does that finds them on the stack. -/
theorem callNamed_eq_ok_iff {text : String} (ha : args.length < 9) :
    callNamed text args m = .ok () m' ↔
      m.stopped = none ∧ args.length < m.room ∧
        call args.length ((m.interned text).1.on
          (args.reverse ++ (m.interned text).2 :: m.stack)) = .ok () m' := by
  obtain ⟨strings, hi⟩ := exists_interned_eq m text
  rw [callNamed_eq m text ha, pushMany_bind_eq_ok_iff, execute_eq_ok_iff, hi, List.reverse_cons,
    List.append_assoc]
  exact and_left_comm

/-- Where an operation leaves one result, a call of it by name succeeds exactly if the program runs
and has room for the name and the arguments. -/
theorem exists_callNamed_iff (op : Operation) (ha : op.accepts args.length)
    (hh : m.HasHandle op.name) (h : m.stack.length < m.capacity → ∃ m₁ result,
      op.run args.length ((m.interned op.name).1.on (args.reverse ++ m.stack)) =
        .ok () (on m₁ (result :: m.stack))) :
    (∃ m', callNamed op.name args m = .ok () m') ↔ m.stopped = none ∧ args.length < m.room := by
  have hlt : args.length < 9 := Nat.lt_succ_of_le (Operation.le_maxCallArgs ha)
  constructor
  · rintro ⟨m', hcall⟩
    obtain ⟨hs, hr, -⟩ := (callNamed_eq_ok_iff hlt).mp hcall
    exact ⟨hs, hr⟩
  · rintro ⟨hs, hr⟩
    have hroom : args.length ≤ ((m.interned op.name).1.on m.stack).room := by
      rw [room, on_capacity, capacity_interned]
      exact hr.le
    obtain ⟨m₁, result, hrun⟩ := h (by rw [room, depth] at hr; omega)
    exact ⟨_, (callNamed_eq_ok_iff hlt).mpr ⟨hs, hr,
      (call_eq_ok_iff (textNamed?_interned hh) ha).mpr ⟨hroom, Operation.runBalanced_run hrun⟩⟩⟩

/-- A call of an operation that succeeds, with what lies on the stack below the name and the
arguments. -/
inductive Called (op : Operation) (args : List Value) (m m' : Machine) : List Value → Prop
  | byName (h : callNamed op.name args m = .ok () m') : Called op args m m' m.stack
  | byOpcode {name : Value} {below : List Value} {code : Opcode}
      (hn : m.textNamed? name = some op.name) (hs : m.stack = args.reverse ++ name :: below)
      (hc : Opcode.ofArgs? args.length = some code) (h : execute code.code m = .ok () m') :
      Called op args m m' below

/-- A text that has a name does not enter the table again. -/
theorem interned_of_textNamed? {v : Value} {text : String} (h : m.textNamed? v = some text) :
    (m.interned text).1 = m := by
  cases v with
  | int n | float x | pointer address => cases h
  | string handle =>
    have hmem : text ∈ m.strings := Array.mem_of_getElem? h
    unfold interned
    cases hi : m.strings.idxOf? text with
    | some i => rfl
    | none => exact absurd hmem (Array.idxOf?_eq_none_iff.mp hi)

/-- A call that succeeds has run the operation, with its name in the table. -/
theorem Called.run_eq_ok (h : Called op args m m' below) (ha : op.accepts args.length)
    (hh : m.HasHandle op.name) :
    args.length ≤ (m.on below).room ∧
      op.run args.length ((m.interned op.name).1.on (args.reverse ++ below)) = .ok () m' := by
  have hlt : args.length < 9 := Nat.lt_succ_of_le (Operation.le_maxCallArgs ha)
  have hname := textNamed?_interned hh
  cases h with
  | byName h =>
    obtain ⟨-, hr, hcall⟩ := (callNamed_eq_ok_iff hlt).mp h
    obtain ⟨-, hrun⟩ := (call_eq_ok_iff hname ha).mp hcall
    exact ⟨hr.le, run_of_runBalanced hrun⟩
  | @byOpcode name below code hn hs hc h =>
    obtain rfl : Opcode.call ⟨args.length, hlt⟩ = code := by
      simpa only [Opcode.ofArgs?, hlt, dif_pos, Option.some.injEq] using hc
    obtain ⟨-, hstep⟩ := execute_eq_ok_iff.mp h
    have hm : m = m.on (args.reverse ++ name :: below) := by
      rw [← hs, on_self]
    rw [hm] at hstep
    obtain ⟨hr, hrun⟩ := (call_eq_ok_iff hn ha).mp hstep
    rw [interned_of_textNamed? hn]
    exact ⟨hr, run_of_runBalanced hrun⟩

end StackScript.Machine
