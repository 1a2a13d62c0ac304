import StackScript.Proofs.Machine.Signature

/-!
# What every opcode preserves

An action changes the machine by few kinds of changes. A relation between machines that admits each
of them (`Admits`) holds between the machines before and after any opcode, be it done or failed
(`Admits.step`).

The first use is `stopped_stepCode`: no opcode decides by itself that the program stops.
-/

namespace StackScript

namespace Machine

variable {R : Machine → Machine → Prop}

/-- The machine in which an action ends, done or failed. -/
def after {α : Type} : EStateM.Result Error Machine α → Machine
  | .ok _ m => m
  | .error _ m => m

/-- A preorder on machines that admits every change which an action can make. -/
structure Admits (R : Machine → Machine → Prop) : Prop where
  refl : ∀ m, R m m
  trans : ∀ {m₁ m₂ m₃}, R m₁ m₂ → R m₂ m₃ → R m₁ m₃
  stack : ∀ m stack, R m (m.on stack)
  intern : ∀ (m : Machine) text, m.strings.idxOf? text = none →
    R m { m with strings := m.strings.push text }
  create : ∀ (m : Machine) length, R m { m with arrays := (m.arrays.create length).1 }
  set : ∀ (m : Machine) id key value, R m { m with arrays := m.arrays.set id key value }
  write : ∀ (m : Machine) name value,
    R m { m with disk := (m.settings.write m.disk name value).2 }
  log : ∀ (m : Machine) line, R m { m with debug := m.debug.push line }

theorem Admits.bind (hR : Admits R) {α β : Type} {a : Action α} {f : α → Action β} {m : Machine}
    (ha : R m (after (a m))) (hf : ∀ x m, R m (after (f x m))) : R m (after ((a >>= f) m)) := by
  simp only [Bind.bind, EStateM.bind]
  cases h : a m with
  | ok x m₁ =>
    rw [h] at ha
    exact hR.trans ha (hf x m₁)
  | error e m₁ =>
    rw [h] at ha
    exact ha

theorem Admits.pop (hR : Admits R) (m : Machine) : R m (after (pop m)) := by
  cases h : m.stack with
  | nil =>
    rw [pop_nil h]
    exact hR.refl m
  | cons v vs =>
    rw [pop_cons h]
    exact hR.stack m vs

theorem Admits.push (hR : Admits R) (v : Value) (m : Machine) : R m (after (push v m)) := by
  unfold Machine.push
  split
  · exact hR.stack m (v :: m.stack)
  · exact hR.refl m

theorem Admits.pushMany (hR : Admits R) (vs : List Value) (m : Machine) :
    R m (after (pushMany vs m)) := by
  induction vs generalizing m with
  | nil => exact hR.refl m
  | cons v vs ih => exact hR.bind (hR.push v m) fun _ => ih

theorem Quiet.preserves {α : Type} {a : Action α} (h : Quiet a) (hR : Admits R) (m : Machine) :
    R m (after (a m)) := by
  induction h generalizing m with
  | pure x => exact hR.refl m
  | throw he => exact hR.refl m
  | textOf handle =>
    unfold Machine.textOf
    split <;> exact hR.refl m
  | intern text =>
    unfold Machine.intern
    split
    · exact hR.refl m
    · rename_i hi
      exact hR.intern m text hi
  | createArray length => exact hR.create m length
  | setArray id key value => exact hR.set m id key value
  | writeSetting name value =>
    have hw := hR.write m name value
    unfold Operation.writeSetting
    generalize m.settings.write m.disk name value = written at hw
    rcases written with ⟨e | u, disk⟩ <;> exact hw
  | log line => exact hR.log m line
  | get hf h ih => exact ih m m
  | bind ha h iha ih => exact hR.bind (iha m) ih

theorem HasEffect.preserves {room n k : Nat} {a : Action Unit} (h : HasEffect room n k a)
    (hR : Admits R) (m : Machine) : R m (after (a m)) := by
  induction h generalizing m with
  | quiet ha => exact ha.preserves hR m
  | throw he hn => exact hR.refl m
  | push v hr => exact hR.push v m
  | pop_bind h ih => exact hR.bind (hR.pop m) ih
  | quiet_bind ha hn h ih => exact hR.bind (ha.preserves hR m) ih
  | get_bind hf h ih => exact ih m m
  | pushMany_bind hr h ih => exact hR.bind (hR.pushMany _ m) fun _ => ih
  | @balanced n op name h ih =>
    refine hR.bind (hR.refl m) fun before m => hR.bind (ih m) fun _ m => ?_
    refine hR.bind (hR.refl m) fun found m => ?_
    by_cases hd : found.depth ≠ before.depth - n + 1
    · rw [if_pos hd]
      exact hR.refl m
    · rw [if_neg hd]
      exact hR.refl m

theorem Admits.step (hR : Admits R) (op : Opcode) (m : Machine) : R m (after (step op m)) :=
  (hasEffect_step op).preserves hR m

theorem Admits.stepCode (hR : Admits R) (code : UInt16) (m : Machine) :
    R m (after (stepCode code m)) := by
  cases hc : Opcode.ofCode? code with
  | some op =>
    rw [Machine.stepCode, hc]
    exact hR.step op m
  | none =>
    rw [Machine.stepCode, hc]
    exact hR.refl m

/-! ## What stays as it is -/

/-- No change that an action makes concerns the end of the program, the room of the stack or where
settings are looked for. -/
theorem admits_fixed : Admits fun m m' =>
    m'.stopped = m.stopped ∧ m'.capacity = m.capacity ∧ m'.settings = m.settings where
  refl _ := ⟨rfl, rfl, rfl⟩
  trans h h' := ⟨h'.1.trans h.1, h'.2.1.trans h.2.1, h'.2.2.trans h.2.2⟩
  stack _ _ := ⟨rfl, rfl, rfl⟩
  intern _ _ _ := ⟨rfl, rfl, rfl⟩
  create _ _ := ⟨rfl, rfl, rfl⟩
  set _ _ _ _ := ⟨rfl, rfl, rfl⟩
  write _ _ _ := ⟨rfl, rfl, rfl⟩
  log _ _ := ⟨rfl, rfl, rfl⟩

theorem stopped_stepCode (code : UInt16) (m : Machine) :
    (after (stepCode code m)).stopped = m.stopped :=
  (admits_fixed.stepCode code m).1

end Machine

end StackScript
