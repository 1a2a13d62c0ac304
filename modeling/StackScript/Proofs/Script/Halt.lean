import StackScript.Proofs.Machine.Preserve
import StackScript.Script.Run

/-!
# Which failures stop the program

A script ends at its first failure, but not every fatal failure stops the program: only `execute`
records one. A value that finds no room, arguments of a call that find none or are too many, and a
value printed from an empty stack fail before any opcode is done.

* `Command.reachesOpcode`: the command gets as far as an opcode.
* `Command.stopped_run`: what one command does to a running program.
* `stopped_run_of_fatal`: after a fatal failure the program has stopped with it exactly if the
  command that failed had got as far as its opcode.
-/

namespace StackScript

namespace Machine

/-- Two machines with the same stack, both stopped for the same reason or both running. -/
structure SameRun (m m' : Machine) : Prop where
  stack : m'.stack = m.stack
  capacity : m'.capacity = m.capacity
  stopped : m'.stopped = m.stopped

theorem SameRun.refl (m : Machine) : SameRun m m := ⟨rfl, rfl, rfl⟩

theorem SameRun.trans {m₁ m₂ m₃ : Machine} (h : SameRun m₁ m₂) (h' : SameRun m₂ m₃) :
    SameRun m₁ m₃ :=
  ⟨h'.stack.trans h.stack, h'.capacity.trans h.capacity, h'.stopped.trans h.stopped⟩

theorem intern_sameRun (text : String) (m : Machine) :
    ∃ v m', intern text m = .ok v m' ∧ SameRun m m' := by
  unfold intern
  split
  · exact ⟨_, m, rfl, .refl m⟩
  · exact ⟨_, _, rfl, rfl, rfl, rfl⟩

/-- The reason for which a running program has stopped after an action, if the action records its
fatal failures. -/
def recorded {α : Type} (records : Bool) : EStateM.Result Error Machine α → Option Error
  | .ok _ _ => none
  | .error e _ => if e.isFatal && records then some e else none

theorem stopped_execute {m : Machine} (hm : m.stopped = none) (code : UInt16) :
    (after (execute code m)).stopped = recorded true (execute code m) := by
  have hs := stopped_stepCode code m
  rw [hm] at hs
  unfold execute
  rw [hm]
  cases h : stepCode code m with
  | ok x m' =>
    rw [h] at hs
    exact hs
  | error e m' =>
    rw [h] at hs
    change m'.stopped = none at hs
    by_cases he : e.isFatal
    · simp [after, recorded, he, stop, hs]
    · simp [after, recorded, he, hs]

/-! ## Calls by name -/

/-- A call with room for its name and its arguments comes to an opcode. -/
theorem callNamed_of_room {m : Machine} (name : String) {args : List Value}
    (ha : args.length ≤ maxCallArgs) (hr : m.depth + args.length + 1 ≤ m.capacity) :
    ∃ code m', m'.stopped = m.stopped ∧ callNamed name args m = execute code m' := by
  obtain ⟨v, m₁, hi, hm⟩ := intern_sameRun name m
  have hlt : args.length < 9 := Nat.lt_succ_of_le ha
  have hd : m₁.stack.length = m.depth := by rw [hm.stack]; rfl
  have hc := hm.capacity
  have hv : push v m₁ = .ok () (m₁.on (v :: m₁.stack)) := push_of_lt v (by omega)
  have hvs : pushMany args (m₁.on (v :: m₁.stack)) =
      .ok () (m₁.on (args.reverse ++ v :: m₁.stack)) :=
    pushMany_of_le (by simp only [on_stack, on_capacity, List.length_cons]; omega)
  refine ⟨(Opcode.call ⟨args.length, hlt⟩).code, m₁.on (args.reverse ++ v :: m₁.stack),
    hm.stopped, ?_⟩
  simp only [callNamed, Opcode.ofArgs?, hlt, dif_pos, pushText, Bind.bind, EStateM.bind, hi, hv,
    hvs]

/-- Values that find no room fail, and the program goes on. -/
theorem pushMany_of_full {m : Machine} (vs : List Value) (hm : m.depth ≤ m.capacity)
    (h : m.capacity < m.depth + vs.length) :
    ∃ e m', m'.stopped = m.stopped ∧ pushMany vs m = .error e m' := by
  induction vs generalizing m with
  | nil =>
    simp only [List.length_nil] at h
    omega
  | cons v vs ih =>
    simp only [List.length_cons] at h
    simp only [pushMany, Bind.bind, EStateM.bind]
    by_cases hv : m.stack.length < m.capacity
    · have hd : (m.on (v :: m.stack)).depth = m.depth + 1 := rfl
      obtain ⟨e, m', hs, hp⟩ := ih (m := m.on (v :: m.stack))
        (by rw [hd]; exact hv) (by rw [hd, on_capacity]; omega)
      refine ⟨e, m', hs, ?_⟩
      rw [push_of_lt v hv]
      exact hp
    · refine ⟨.stackOverflow m.capacity, m, rfl, ?_⟩
      rw [push_of_full v (Nat.le_of_not_lt hv)]

/-- Any other call fails before it comes to an opcode. -/
theorem callNamed_of_full {m : Machine} (name : String) {args : List Value}
    (h : ¬ (args.length ≤ maxCallArgs ∧ m.depth + args.length + 1 ≤ m.capacity)) :
    ∃ e m', m'.stopped = m.stopped ∧ callNamed name args m = .error e m' := by
  unfold callNamed
  by_cases ha : args.length < 9
  · have hr : m.capacity < m.depth + args.length + 1 := by
      simp only [maxCallArgs] at h
      omega
    obtain ⟨v, m₁, hi, hm⟩ := intern_sameRun name m
    have hd : m₁.stack.length = m.depth := by rw [hm.stack]; rfl
    have hc := hm.capacity
    simp only [Opcode.ofArgs?, ha, dif_pos, pushText, Bind.bind, EStateM.bind, hi]
    by_cases hv : m₁.stack.length < m₁.capacity
    · have hd' : (m₁.on (v :: m₁.stack)).depth = m.depth + 1 := by rw [← hd]; rfl
      obtain ⟨e, m', hs, hp⟩ := pushMany_of_full (m := m₁.on (v :: m₁.stack)) args
        (by rw [hd', on_capacity]; omega) (by rw [hd', on_capacity]; omega)
      have hv' : push v m₁ = .ok () (m₁.on (v :: m₁.stack)) := push_of_lt v hv
      refine ⟨e, m', hs.trans hm.stopped, ?_⟩
      simp only [hv', hp]
    · refine ⟨.stackOverflow m₁.capacity, m₁, hm.stopped, ?_⟩
      rw [push_of_full v (Nat.le_of_not_lt hv)]
  · refine ⟨.arityMismatch name args.length 0 maxCallArgs, m, rfl, ?_⟩
    simp only [Opcode.ofArgs?, ha, dif_neg, not_false_eq_true]
    rfl

end Machine

namespace Script

open Machine

/-- The values of literals leave the stack and the program as they are. -/
theorem Literal.toValue_sameRun (l : Literal) (m : Machine) :
    ∃ v m', l.toValue m = .ok v m' ∧ SameRun m m' := by
  cases l with
  | int n => exact ⟨_, m, rfl, .refl m⟩
  | float x => exact ⟨_, m, rfl, .refl m⟩
  | text s => exact intern_sameRun s m

theorem Literal.mapM_toValue_sameRun (ls : List Literal) (m : Machine) :
    ∃ vs m', ls.mapM Literal.toValue m = .ok vs m' ∧ vs.length = ls.length ∧ SameRun m m' := by
  induction ls generalizing m with
  | nil => exact ⟨[], m, by rw [List.mapM_nil]; rfl, rfl, .refl m⟩
  | cons l ls ih =>
    obtain ⟨v, m₁, hv, h₁⟩ := l.toValue_sameRun m
    obtain ⟨vs, m₂, hvs, hl, h₂⟩ := ih m₁
    refine ⟨v :: vs, m₂, ?_, by simp [hl], h₁.trans h₂⟩
    simp only [List.mapM_cons, Bind.bind, EStateM.bind, hv, hvs]
    rfl

/-! ## One command -/

/-- Whether a command gets as far as an opcode: there is one to do, and what it works on fits on the
stack. -/
def Command.reachesOpcode (m : Machine) : Command → Bool
  | .op _ => true
  | .call _ args => args.length ≤ maxCallArgs && m.depth + args.length + 1 ≤ m.capacity
  | .push _ | .print => false

/-- A running program goes on after a command that is done. After one that failed it has stopped
exactly if the failure is fatal and came from an opcode, and then with this failure. -/
theorem Command.stopped_run (c : Command) {m : Machine} (hm : m.stopped = none) :
    (after (c.run m)).stopped = recorded (c.reachesOpcode m) (c.run m) := by
  cases c with
  | push l =>
    obtain ⟨v, m₁, hv, h₁⟩ := l.toValue_sameRun m
    have hs : m₁.stopped = none := h₁.stopped.trans hm
    simp only [Command.run, Bind.bind, EStateM.bind, hv, Machine.push]
    by_cases hr : m₁.stack.length < m₁.capacity
    · rw [if_pos hr]
      exact hs
    · rw [if_neg hr]
      simpa [after, recorded, reachesOpcode] using hs
  | op code =>
    have h := stopped_execute hm code
    simp only [Command.run, Bind.bind, EStateM.bind]
    cases hx : execute code m <;> rw [hx] at h <;> exact h
  | call name args =>
    obtain ⟨vs, m₁, hvs, hl, h₁⟩ := Literal.mapM_toValue_sameRun args m
    have hs : m₁.stopped = none := h₁.stopped.trans hm
    have hd : m₁.depth = m.depth := congrArg List.length h₁.stack
    simp only [Command.run, Bind.bind, EStateM.bind, hvs]
    by_cases hr : args.length ≤ maxCallArgs ∧ m.depth + args.length + 1 ≤ m.capacity
    · have hc : reachesOpcode m (.call name args) = true := by simp [reachesOpcode, hr]
      rw [← hl, ← hd, ← h₁.capacity] at hr
      obtain ⟨code, m₂, h₂, hx⟩ := callNamed_of_room name hr.1 hr.2
      have h := stopped_execute (h₂.trans hs) code
      rw [hc, hx]
      cases hy : execute code m₂ <;> rw [hy] at h <;> exact h
    · have hc : reachesOpcode m (.call name args) = false := by
        simp only [reachesOpcode, Bool.and_eq_false_iff, decide_eq_false_iff_not]
        exact Decidable.not_and_iff_not_or_not.mp hr
      rw [← hl, ← hd, ← h₁.capacity] at hr
      obtain ⟨e, m₂, h₂, hx⟩ := callNamed_of_full name hr
      rw [hc, hx]
      simpa [after, recorded] using h₂.trans hs
  | print =>
    cases hk : m.stack with
    | nil =>
      simp only [Command.run, Bind.bind, EStateM.bind, pop_nil hk]
      simpa [after, recorded, reachesOpcode] using hm
    | cons v vs =>
      simp only [Command.run, Bind.bind, EStateM.bind, pop_cons hk]
      exact hm

/-! ## Runs -/

/-- After a fatal failure the program has stopped with it exactly if the command that failed had got
as far as its opcode; otherwise the program is still running. -/
theorem stopped_run_of_fatal {lines : List Line} {m : Machine} {e : Error}
    (hm : m.stopped = none) (he : (run lines m).error = some e) (hf : e.isFatal) :
    ∃ done line rest, lines = done ++ line :: rest ∧ (run done m).error = none ∧
      line.command.run (run done m).machine = .error e (run lines m).machine ∧
      ((run lines m).machine.stopped = some e ↔
        line.command.reachesOpcode (run done m).machine) ∧
      ((run lines m).machine.stopped = none ↔
        ¬ line.command.reachesOpcode (run done m).machine) := by
  induction lines generalizing m with
  | nil => cases he
  | cons line rest ih =>
    have hs := line.command.stopped_run hm
    cases hc : line.command.run m with
    | error e' m' =>
      -- The first command fails, so nothing comes before it.
      simp only [run, hc, Option.some.injEq] at he ⊢
      subst he
      rw [hc] at hs
      refine ⟨[], line, rest, rfl, rfl, hc, ?_⟩
      change m'.stopped = if e'.isFatal && _ then some e' else none at hs
      rw [hs, hf, Bool.true_and]
      cases hr : line.command.reachesOpcode m <;> simp [run, hr]
    | ok printed m' =>
      rw [hc] at hs
      simp only [run, hc] at he ⊢
      obtain ⟨done, line', rest', hl, hd, hrun, hiff⟩ := ih hs he
      refine ⟨line :: done, line', rest', congrArg (line :: ·) hl, ?_⟩
      simp only [run, hc]
      exact ⟨hd, hrun, hiff⟩

/-- A value printed from an empty stack is a fatal failure after which the program is running. -/
theorem stopped_run_print :
    (run [⟨1, .print⟩] {}).error = some .stackUnderflow ∧ Error.stackUnderflow.isFatal ∧
      (run [⟨1, .print⟩] {}).machine.stopped = none := by
  refine ⟨rfl, rfl, ?_⟩
  have he : (run [⟨1, .print⟩] {}).error = some .stackUnderflow := rfl
  obtain ⟨done, line, rest, hl, -, -, -, h⟩ := stopped_run_of_fatal rfl he rfl
  cases done with
  | nil =>
    obtain ⟨rfl, -⟩ := List.cons.inj hl
    exact h.mpr Bool.false_ne_true
  | cons _ done =>
    have hn := (List.cons.inj hl).2
    exact absurd hn.symm (by simp)

end Script

end StackScript
