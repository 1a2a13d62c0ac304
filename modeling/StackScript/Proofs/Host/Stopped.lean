import StackScript.Proofs.Host.Session
import StackScript.Proofs.Machine.Meaning

/-!
# What is left of a stopped program

A stopped program refuses every opcode and stays as it is. A call by name is refused later: its name
enters the table, and the name and the arguments are put on the stack as far as there is room,
before the opcode of the call is refused. So no call leaves the program as it was and is told so:
with room for all its values it is refused as stopped and leaves them on the stack, with less room
it fails for want of room, and only on a full stack it leaves nothing.

* `pushMany_eq`: values are put on the stack as far as there is room.
* `callNamed_eq`: a call by name, as values on the stack and an opcode.
* `callNamed_of_stopped`: what a call does to a stopped program.
* `session_of_stopped`: what opcodes, calls and further reasons to stop leave of it.
-/

namespace StackScript

namespace Machine

variable {m : Machine} {reason : Error}

/-- How many values find room on the stack. -/
def room (m : Machine) : Nat := m.capacity - m.depth

/-- Values are put on the stack as far as there is room. -/
theorem pushMany_eq (vs : List Value) (m : Machine) :
    pushMany vs m =
      if vs.length ≤ m.room then .ok () (m.on (vs.reverse ++ m.stack))
      else .error (.stackOverflow m.capacity) (m.on ((vs.take m.room).reverse ++ m.stack)) := by
  induction vs generalizing m with
  | nil => rfl
  | cons v vs ih =>
    simp only [pushMany, Bind.bind, EStateM.bind]
    by_cases hv : m.stack.length < m.capacity
    · have hroom : m.room = (m.on (v :: m.stack)).room + 1 := by
        simp only [room, depth, on, List.length_cons]
        omega
      have hp : push v m = .ok () (m.on (v :: m.stack)) := push_of_lt v hv
      simp only [hp, ih, hroom, List.length_cons, Nat.add_le_add_iff_right, List.take_succ_cons,
        List.reverse_cons, List.append_assoc, List.singleton_append]
      rfl
    · have hroom : m.room = 0 := Nat.sub_eq_zero_of_le (Nat.le_of_not_lt hv)
      rw [push_of_full v (Nat.le_of_not_lt hv), hroom, if_neg (by simp)]
      rfl

/-- A text that enters the table changes nothing else. -/
theorem exists_interned_eq (m : Machine) (text : String) :
    ∃ strings, (m.interned text).1 = { m with strings } := by
  unfold interned
  split
  · exact ⟨m.strings, rfl⟩
  · exact ⟨_, rfl⟩

/-- A call by name puts the name and the arguments on the stack and does the opcode for so many
arguments. -/
theorem callNamed_eq (m : Machine) (name : String) {args : List Value} (ha : args.length < 9) :
    callNamed name args m =
      (pushMany ((m.interned name).2 :: args) >>= fun _ =>
        execute (Opcode.call ⟨args.length, ha⟩).code) (m.interned name).1 := by
  simp only [callNamed, Opcode.ofArgs?, ha, dif_pos, pushText, pushMany, bind_assoc]
  simp only [Bind.bind, EStateM.bind, intern_eq]

theorem execute_of_stopped (hs : m.stopped = some reason) (code : UInt16) :
    execute code m = .error (.halted reason) m := by
  simp only [execute, hs]

theorem stop_of_stopped (hs : m.stopped = some reason) (e : Error) : m.stop e = m := by
  cases m
  cases hs
  rfl

/-- A call to a stopped program leaves its name and its arguments on the stack as far as there is
room, and tells that the program has stopped only if there is room for all. -/
theorem callNamed_of_stopped (hs : m.stopped = some reason) (name : String) {args : List Value}
    (ha : args.length ≤ maxCallArgs) :
    callNamed name args m =
      .error (if args.length < m.room then .halted reason else .stackOverflow m.capacity)
        ((m.interned name).1.on
          ((((m.interned name).2 :: args).take m.room).reverse ++ m.stack)) := by
  obtain ⟨strings, hi⟩ := exists_interned_eq m name
  rw [callNamed_eq m name (Nat.lt_succ_of_le ha)]
  simp only [Bind.bind, EStateM.bind, pushMany_eq, hi]
  by_cases hr : args.length < m.room
  · have hroom : ((m.interned name).2 :: args).length ≤ ({ m with strings } : Machine).room := hr
    have hall : ((m.interned name).2 :: args).take m.room = (m.interned name).2 :: args :=
      List.take_of_length_le hroom
    rw [if_pos hroom, if_pos hr, hall]
    exact execute_of_stopped (m := ({ m with strings } : Machine).on _) hs _
  · have hroom : ¬ ((m.interned name).2 :: args).length ≤ ({ m with strings } : Machine).room := hr
    rw [if_neg hroom, if_neg hr]
    rfl

end Machine

open Machine

namespace Host

variable {m : Machine} {reason : Error}

/-- The requests that a stopped program is to refuse, and further reasons to stop. -/
def Request.isGuarded : Request → Bool
  | .execute _ | .stop _ => true
  | .call _ args => args.length ≤ maxCallArgs
  | _ => false

/-- Whether a request is a call by name. -/
def Request.isCall : Request → Bool
  | .call .. => true
  | _ => false

/-- What a guarded request leaves of a stopped program: a call leaves values on a stack that has
room, and nothing else is changed but the table of texts. -/
theorem serve_of_stopped (hs : m.stopped = some reason) {r : Request} (hr : r.isGuarded) :
    ∃ strings left, serve m r = { m with strings, stack := left ++ m.stack } ∧
      (left = [] ↔ m.room = 0 ∨ r.isCall = false) := by
  cases r with
  | execute code =>
    refine ⟨m.strings, [], ?_, by simp [Request.isCall]⟩
    simp only [serve, Request.act, execute_of_stopped hs]
    rfl
  | stop e =>
    refine ⟨m.strings, [], ?_, by simp [Request.isCall]⟩
    exact stop_of_stopped hs e
  | call name args =>
    obtain ⟨strings, hi⟩ := exists_interned_eq m name
    have ha : args.length ≤ maxCallArgs := by simpa [Request.isGuarded] using hr
    refine ⟨strings, (((m.interned name).2 :: args).take m.room).reverse, ?_, ?_⟩
    · simp only [serve, Request.act, callNamed_of_stopped hs name ha, hi]
      rfl
    · simp [Request.isCall]
  | push v | pushText t | pop | popInt | popFloat | popText | popPointer | intern t | script l =>
    cases hr

/-- A stopped program refuses every opcode and stays as it is. A call enters its name in the table
and leaves the name and the arguments on the stack as far as there is room; it is refused as stopped
if there is room for all of them, and otherwise for want of room. So opcodes, calls and further
reasons to stop, one after the other, change nothing but the table of texts and what lies above the
old stack, the first reason is kept, and the stack is as before exactly if it was full or there was
no call. -/
theorem session_of_stopped (hs : m.stopped = some reason) :
    (Error.halted reason).message = "script halted: " ++ reason.message ∧
      (∀ code, execute code m = .error (.halted reason) m) ∧
      (∀ name args, args.length ≤ maxCallArgs →
        callNamed name args m =
          .error (if args.length < m.room then .halted reason else .stackOverflow m.capacity)
            ((m.interned name).1.on
              ((((m.interned name).2 :: args).take m.room).reverse ++ m.stack))) ∧
      ∀ rs : List Request, (∀ r ∈ rs, r.isGuarded) →
        ∃ strings left, session m rs = { m with strings, stack := left ++ m.stack } ∧
          (left = [] ↔ m.room = 0 ∨ ∀ r ∈ rs, r.isCall = false) := by
  refine ⟨rfl, execute_of_stopped hs, fun name args => callNamed_of_stopped hs name, ?_⟩
  intro rs hrs
  induction rs generalizing m with
  | nil => exact ⟨m.strings, [], rfl, by simp⟩
  | cons r rs ih =>
    obtain ⟨hr, hrs⟩ := List.forall_mem_cons.mp hrs
    obtain ⟨strings, left, hserve, hleft⟩ := serve_of_stopped hs hr
    obtain ⟨strings', left', hsession, hleft'⟩ :=
      ih (m := { m with strings, stack := left ++ m.stack }) hs hrs
    refine ⟨strings', left' ++ left, ?_, ?_⟩
    · rw [List.append_assoc, ← hsession, ← hserve]
      rfl
    · rw [List.append_eq_nil_iff, hleft', List.forall_mem_cons, hleft]
      by_cases hfirst : m.room = 0 ∨ r.isCall = false
      · -- The first request has left nothing, so that the others find the room that it found.
        obtain rfl := hleft.mpr hfirst
        change (m.room = 0 ∨ _) ∧ _ ↔ _
        tauto
      · tauto

/-- The first of two calls finds room for its two values and is refused as stopped, the second finds
none; the values of the first stay on the stack. -/
theorem session_of_stopped_calls :
    let m : Machine := { stack := [.int 7], capacity := 3, stopped := some .stackUnderflow }
    let call : Request := .call "floor2" [.int 1]
    let rs : List Request := [.execute 0x8210, call, call, .stop (.unknownOpcode 1)]
    m.stopped = some .stackUnderflow ∧ (∀ r ∈ rs, r.isGuarded) ∧
      execute 0x8210 m = .error (.halted .stackUnderflow) m ∧
      (∃ m', callNamed "floor2" [.int 1] m = .error (.halted .stackUnderflow) m' ∧
        m'.stack = [.int 1, .string 0, .int 7]) ∧
      (session m rs).stopped = some .stackUnderflow ∧ (session m rs).stack ≠ m.stack := by
  intro m call rs
  have hs : m.stopped = some .stackUnderflow := rfl
  have hrs : ∀ r ∈ rs, r.isGuarded := by decide
  obtain ⟨-, hexecute, hcall, hsession⟩ := session_of_stopped hs
  obtain ⟨strings, left, he, hleft⟩ := hsession rs hrs
  have hleft1 : (((m.interned "floor2").2 :: [.int 1]).take m.room).reverse ++ m.stack =
      [.int 1, .string 0, .int 7] := by decide +kernel
  refine ⟨hs, hrs, hexecute 0x8210, ⟨_, hcall "floor2" [.int 1] (by decide), hleft1⟩, ?_, ?_⟩
  · rw [he]
  · rw [he]
    intro h
    obtain rfl : left = [] := by simpa using h
    exact absurd (hleft.mp rfl) (by decide)

end Host

end StackScript
