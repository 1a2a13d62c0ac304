import StackScript.Proofs.Machine.Effect

/-!
# Signatures of opcodes

What a stack effect means for a run: with enough values on the stack an action does the same
whatever lies below its own (`HasEffect.enough`), with too few it fails (`HasEffect.starved`).

`stepCode_signature` says it of every opcode: a success replaces its operands by its results, a
failure takes no more than the operands, and nothing depends on the values below them.
-/

namespace StackScript

namespace Machine

@[simp] theorem on_stack (m : Machine) (stack : List Value) : (m.on stack).stack = stack := rfl

@[simp] theorem on_capacity (m : Machine) (stack : List Value) :
    (m.on stack).capacity = m.capacity := rfl

@[simp] theorem on_depth (m : Machine) (stack : List Value) :
    (m.on stack).depth = stack.length := rfl

@[simp] theorem on_self (m : Machine) : m.on m.stack = m := rfl

/-! ## The meaning of an effect -/

/-- A quiet action does the same on every stack, which it leaves as it is. -/
theorem Quiet.outcome {α : Type} {a : Action α} (h : Quiet a) (m : Machine) :
    (∃ (x : α) (m' : Machine), m'.capacity = m.capacity ∧
      ∀ stack, a (m.on stack) = .ok x (m'.on stack)) ∨
      ∃ (e : Error) (m' : Machine), e.isCallFault ∧
        ∀ stack, a (m.on stack) = .error e (m'.on stack) := by
  induction h generalizing m with
  | pure x => exact .inl ⟨x, m, rfl, fun _ => rfl⟩
  | throw he => exact .inr ⟨_, m, he, fun _ => rfl⟩
  | textOf handle =>
    have e : ∀ stack, (m.on stack).text? handle = m.text? handle := fun _ => rfl
    cases ht : m.text? handle with
    | some text => exact .inl ⟨text, m, rfl, fun stack => by simp only [Machine.textOf, e, ht]⟩
    | none =>
      exact .inr ⟨.invalidHandle handle, m, rfl, fun stack => by simp only [Machine.textOf, e, ht]⟩
  | intern text =>
    have e : ∀ stack, (m.on stack).strings = m.strings := fun _ => rfl
    cases hi : m.strings.idxOf? text with
    | some i =>
      exact .inl ⟨.string (.ofNat i), m, rfl, fun stack => by simp only [Machine.intern, e, hi]⟩
    | none =>
      refine .inl ⟨.string (.ofNat m.strings.size), { m with strings := m.strings.push text }, rfl,
        fun stack => ?_⟩
      simp only [Machine.intern, e, hi]
      rfl
  | createArray length =>
    exact .inl ⟨(m.arrays.create length).2, { m with arrays := (m.arrays.create length).1 }, rfl,
      fun _ => rfl⟩
  | setArray id key value =>
    exact .inl ⟨(), { m with arrays := m.arrays.set id key value }, rfl, fun _ => rfl⟩
  | writeSetting name value =>
    have e : ∀ stack, (m.on stack).settings = m.settings ∧ (m.on stack).disk = m.disk :=
      fun _ => ⟨rfl, rfl⟩
    rcases hs : m.settings.write m.disk name value with ⟨f | u, disk⟩
    · refine .inl ⟨some f, { m with disk }, rfl, fun stack => ?_⟩
      simp only [Operation.writeSetting, e, hs]
      rfl
    · refine .inl ⟨none, { m with disk }, rfl, fun stack => ?_⟩
      simp only [Operation.writeSetting, e, hs]
      rfl
  | log line => exact .inl ⟨(), { m with debug := m.debug.push line }, rfl, fun _ => rfl⟩
  | get hf h ih =>
    rcases ih m m with ⟨x, m', hc, hm⟩ | ⟨e, m', he, hm⟩
    · exact .inl ⟨x, m', hc, fun stack => (congrFun (hf m stack) (m.on stack)).trans (hm stack)⟩
    · exact .inr ⟨e, m', he, fun stack => (congrFun (hf m stack) (m.on stack)).trans (hm stack)⟩
  | bind ha h iha ih =>
    rcases iha m with ⟨x, m₁, hc, hm⟩ | ⟨e, m₁, he, hm⟩
    · rcases ih x m₁ with ⟨y, m', hc', hm'⟩ | ⟨e, m', he, hm'⟩
      · refine .inl ⟨y, m', hc'.trans hc, fun stack => ?_⟩
        simp only [Bind.bind, EStateM.bind, hm, hm']
      · refine .inr ⟨e, m', he, fun stack => ?_⟩
        simp only [Bind.bind, EStateM.bind, hm, hm']
    · refine .inr ⟨e, m₁, he, fun stack => ?_⟩
      simp only [Bind.bind, EStateM.bind, hm]

namespace HasEffect

variable {room n k : Nat} {a : Action Unit}

/-- With fewer values than an action takes it fails, and what is left of them has not grown. -/
theorem starved (h : HasEffect room n k a) {m : Machine} (hm : m.stack.length < n) :
    ∃ (e : Error) (m' : Machine), a m = .error e m' ∧ m'.stack.length ≤ m.stack.length ∧
      e.isCallFault := by
  induction h generalizing m with
  | quiet _ => cases hm
  | push _ _ => cases hm
  | pushMany_bind _ _ _ => cases hm
  | throw he _ => exact ⟨_, m, rfl, Nat.le_refl _, he⟩
  | pop_bind h ih =>
    cases hs : m.stack with
    | nil =>
      refine ⟨.stackUnderflow, m, ?_, by simp [hs], rfl⟩
      simp only [Bind.bind, EStateM.bind, pop_nil hs]
    | cons v vs =>
      simp only [hs, List.length_cons] at hm
      obtain ⟨e, m', he, hl, hf⟩ := ih v (m := m.on vs) (by rw [on_stack]; omega)
      refine ⟨e, m', ?_, ?_, hf⟩
      · simp only [Bind.bind, EStateM.bind, pop_cons hs]
        exact he
      · rw [on_stack] at hl
        simp only [List.length_cons]
        omega
  | quiet_bind ha _ h ih =>
    rcases ha.outcome m with ⟨x, m₁, -, hx⟩ | ⟨e, m₁, he, hx⟩
    · have hx := hx m.stack
      rw [on_self] at hx
      obtain ⟨e, m', he, hl, hf⟩ := ih x (m := m₁.on m.stack) hm
      refine ⟨e, m', ?_, hl, hf⟩
      simp only [Bind.bind, EStateM.bind, hx]
      exact he
    · have hx := hx m.stack
      rw [on_self] at hx
      refine ⟨e, m₁.on m.stack, ?_, Nat.le_refl _, he⟩
      simp only [Bind.bind, EStateM.bind, hx]
  | get_bind hf h ih => exact ih m hm
  | balanced name h ih =>
    obtain ⟨e, m', he, hl, hf⟩ := ih hm
    refine ⟨e, m', ?_, hl, hf⟩
    simp only [runBalanced, Bind.bind, EStateM.bind, MonadState.get, getThe, MonadStateOf.get,
      EStateM.get, he]

/-- With enough values, and room for what an action puts back, the action does the same whatever
lies below its own values: it replaces them by its results, or fails and leaves no more than the
room of them. -/
theorem enough (h : HasEffect room n k a) {m : Machine} {own : List Value} {low : Nat}
    (hown : own.length = n) (hroom : room + low ≤ m.capacity) :
    (∃ (m' : Machine) (own' : List Value), own'.length = k ∧ ∀ below, below.length = low →
        a (m.on (own ++ below)) = .ok () (m'.on (own' ++ below))) ∨
      ∃ (e : Error) (m' : Machine) (own' : List Value), own'.length ≤ room ∧ e.isCallFault ∧
        ∀ below, below.length = low →
          a (m.on (own ++ below)) = .error e (m'.on (own' ++ below)) := by
  induction h generalizing m own with
  | quiet ha =>
    obtain rfl := List.eq_nil_of_length_eq_zero hown
    rcases ha.outcome m with ⟨x, m', -, hx⟩ | ⟨e, m', he, hx⟩
    · exact .inl ⟨m', [], rfl, fun below _ => hx below⟩
    · exact .inr ⟨e, m', [], Nat.zero_le _, he, fun below _ => hx below⟩
  | throw he hn => exact .inr ⟨_, m, own, hown ▸ hn, he, fun below _ => rfl⟩
  | push v hr =>
    obtain rfl := List.eq_nil_of_length_eq_zero hown
    refine .inl ⟨m, [v], rfl, fun below hb => ?_⟩
    exact push_of_lt v (by simp only [List.nil_append, on_stack, on_capacity]; omega)
  | pop_bind h ih =>
    obtain ⟨v, vs, rfl⟩ := List.exists_cons_of_length_eq_add_one hown
    exact ih v (Nat.succ.inj hown) hroom
  | quiet_bind ha hn h ih =>
    rcases ha.outcome m with ⟨x, m₁, hc, hx⟩ | ⟨e, m₁, he, hx⟩
    · rcases ih x (m := m₁) hown (hc ▸ hroom) with ⟨m', own', hk, hr⟩ | ⟨e, m', own', hl, he, hr⟩
      · refine .inl ⟨m', own', hk, fun below hb => ?_⟩
        simp only [Bind.bind, EStateM.bind, hx, hr below hb]
      · refine .inr ⟨e, m', own', hl, he, fun below hb => ?_⟩
        simp only [Bind.bind, EStateM.bind, hx, hr below hb]
    · refine .inr ⟨e, m₁, own, hown ▸ hn, he, fun below hb => ?_⟩
      simp only [Bind.bind, EStateM.bind, hx]
  | get_bind hf h ih =>
    have hg := fun stack => congrFun (hf m stack) (m.on stack)
    rcases ih m hown hroom with ⟨m', own', hk, hr⟩ | ⟨e, m', own', hl, he, hr⟩
    · exact .inl ⟨m', own', hk, fun below hb => (hg _).trans (hr below hb)⟩
    · exact .inr ⟨e, m', own', hl, he, fun below hb => (hg _).trans (hr below hb)⟩
  | @pushMany_bind k vs f hr h ih =>
    obtain rfl := List.eq_nil_of_length_eq_zero hown
    have hv : ∀ below : List Value, below.length = low →
        pushMany vs (m.on below) = .ok () (m.on (vs.reverse ++ below)) := fun below hb =>
      pushMany_of_le (by rw [on_stack, on_capacity]; omega)
    have hlen : vs.reverse.length = vs.length := List.length_reverse
    rcases ih hlen hroom with
      ⟨m', own', hk, hr⟩ | ⟨e, m', own', hl, he, hr⟩
    · refine .inl ⟨m', own', hk, fun below hb => ?_⟩
      simp only [List.nil_append, Bind.bind, EStateM.bind, hv below hb, hr below hb]
    · refine .inr ⟨e, m', own', hl, he, fun below hb => ?_⟩
      simp only [List.nil_append, Bind.bind, EStateM.bind, hv below hb, hr below hb]
  | @balanced n op name h ih =>
    rcases ih hown hroom with ⟨m', own', hk, hr⟩ | ⟨e, m', own', hl, he, hr⟩
    · refine .inl ⟨m', own', hk, fun below hb => ?_⟩
      have hd : (m'.on (own' ++ below)).depth = (m.on (own ++ below)).depth - n + 1 := by
        simp only [on_depth, List.length_append]
        omega
      simp only [runBalanced, Bind.bind, EStateM.bind, MonadState.get, getThe, MonadStateOf.get,
        EStateM.get, hr below hb]
      rw [if_neg fun hne => hne hd]
      rfl
    · refine .inr ⟨e, m', own', hl, he, fun below hb => ?_⟩
      simp only [runBalanced, Bind.bind, EStateM.bind, MonadState.get, getThe, MonadStateOf.get,
        EStateM.get, hr below hb]

end HasEffect

/-! ## Opcodes -/

/-- An opcode that takes nothing puts one value on top. -/
theorem step_of_pops_eq_zero {op : Opcode} (h : op.pops = 0) :
    op.pushes = 1 ∧ ∃ v, step op = push v := by
  cases op with
  | versionMajor | versionMinor | versionBuild => exact ⟨rfl, _, rfl⟩
  | _ => cases h

theorem pushes_le_one (op : Opcode) : op.pushes ≤ 1 := by
  cases op <;> simp [Opcode.pushes]

/-- Two outcomes that agree on everything but the values at the bottom of the stack, `low` in one
and `low'` in the other. -/
inductive AgreeAbove (low low' : List Value) :
    EStateM.Result Error Machine Unit → EStateM.Result Error Machine Unit → Prop
  | ok (m : Machine) (top : List Value) :
      AgreeAbove low low' (.ok () (m.on (top ++ low))) (.ok () (m.on (top ++ low')))
  | error (e : Error) (m : Machine) (top : List Value) :
      AgreeAbove low low' (.error e (m.on (top ++ low))) (.error e (m.on (top ++ low')))

/-- What an opcode makes of its operands, for all values below them at once. -/
theorem step_outcome (op : Opcode) {m : Machine} (hm : m.depth ≤ m.capacity) :
    (op.pops ≤ m.depth ∧ ∃ (m' : Machine) (top : List Value), top.length = op.pushes ∧
        ∀ low, low.length = (m.stack.drop op.pops).length →
          step op (m.on (m.stack.take op.pops ++ low)) = .ok () (m'.on (top ++ low))) ∨
      ∃ (e : Error) (m' : Machine) (top : List Value), top.length ≤ (m.stack.take op.pops).length ∧
        ∀ low, low.length = (m.stack.drop op.pops).length →
          step op (m.on (m.stack.take op.pops ++ low)) = .error e (m'.on (top ++ low)) := by
  rw [depth] at hm ⊢
  rcases Nat.lt_or_ge m.stack.length op.pops with hd | hd
  · obtain ⟨e, m', he, hl, -⟩ := (hasEffect_step op).starved hd
    rw [List.take_of_length_le (Nat.le_of_lt hd), List.drop_of_length_le (Nat.le_of_lt hd)]
    refine .inr ⟨e, m', m'.stack, hl, fun low hlow => ?_⟩
    obtain rfl := List.eq_nil_of_length_eq_zero hlow
    simpa using he
  rcases Nat.eq_zero_or_pos op.pops with h0 | hpos
  · obtain ⟨hk, v, hv⟩ := step_of_pops_eq_zero h0
    rw [h0, hk, hv, List.take_zero, List.drop_zero]
    rcases Nat.lt_or_ge m.stack.length m.capacity with hroom | hfull
    · refine .inl ⟨Nat.zero_le _, m, [v], rfl, fun low hlow => ?_⟩
      exact push_of_lt v (by rw [on_capacity, on_stack]; exact hlow ▸ hroom)
    · refine .inr ⟨.stackOverflow m.capacity, m, [], Nat.le_refl _, fun low hlow => ?_⟩
      exact push_of_full v (by rw [on_capacity, on_stack]; exact hlow ▸ hfull)
  · have hmax : max op.pops op.pushes = op.pops := by
      have := pushes_le_one op
      omega
    have heffect := hasEffect_step op
    rw [hmax] at heffect
    have hown : (m.stack.take op.pops).length = op.pops := by
      rw [List.length_take]
      omega
    have hroom : op.pops + (m.stack.drop op.pops).length ≤ m.capacity := by
      rw [List.length_drop]
      omega
    rcases heffect.enough hown hroom with ⟨m', top, hk, hr⟩ | ⟨e, m', top, hl, -, hr⟩
    · exact .inl ⟨hd, m', top, hk, hr⟩
    · exact .inr ⟨e, m', top, hown.symm ▸ hl, hr⟩

/-- What it demands of a run from `m` that an action takes `pops` values and leaves `pushes`. -/
structure Obeys (pops pushes : Nat) (a : Action Unit) (m : Machine) : Prop where
  ok : ∀ m', a m = .ok () m' → pops ≤ m.depth ∧ ∃ pushed : List Value, pushed.length = pushes ∧
    m'.stack = pushed ++ m.stack.drop pops
  error : ∀ e m', a m = .error e m' → m.stack.drop pops <:+ m'.stack ∧ m'.depth ≤ m.depth
  agree : ∀ low, low.length = (m.stack.drop pops).length →
    AgreeAbove (m.stack.drop pops) low (a m) (a (m.on (m.stack.take pops ++ low)))

/-- Every opcode keeps to its signature, and neither reads nor changes what lies below its
operands. -/
theorem stepCode_signature {code : UInt16} {op : Opcode} (hc : Opcode.ofCode? code = some op)
    {m : Machine} (hm : m.depth ≤ m.capacity) : Obeys op.pops op.pushes (stepCode code) m := by
  have hstep : stepCode code = step op := by rw [stepCode, hc]
  have hself : m.on (m.stack.take op.pops ++ m.stack.drop op.pops) = m := by
    rw [List.take_append_drop, on_self]
  rw [hstep]
  rcases step_outcome op hm with ⟨hd, m₁, top, hk, hr⟩ | ⟨e₁, m₁, top, hl, hr⟩
  · have hrun := hr _ rfl
    rw [hself] at hrun
    constructor
    · intro m' h
      obtain rfl : m₁.on (top ++ m.stack.drop op.pops) = m' := by simpa [hrun] using h
      exact ⟨hd, top, hk, rfl⟩
    · intro e m' h
      rw [hrun] at h
      cases h
    · intro low hlow
      rw [hrun, hr low hlow]
      exact .ok m₁ top
  · have hrun := hr _ rfl
    rw [hself] at hrun
    constructor
    · intro m' h
      rw [hrun] at h
      cases h
    · intro e m' h
      obtain ⟨rfl, rfl⟩ : e₁ = e ∧ m₁.on (top ++ m.stack.drop op.pops) = m' := by
        simpa [hrun] using h
      refine ⟨List.suffix_append _ _, ?_⟩
      show (top ++ m.stack.drop op.pops).length ≤ m.stack.length
      simp only [List.length_append, List.length_take, List.length_drop] at hl ⊢
      omega
    · intro low hlow
      rw [hrun, hr low hlow]
      exact .error e₁ m₁ top

/-- A search whose text is an object fails after the name and the other argument were taken. -/
theorem stepCode_signature_find :
    Opcode.ofCode? 0x8278 = some (.call 2) ∧
      Obeys 3 1 (stepCode 0x8278)
        { stack := [.string 0, .pointer 5, .string 1, .int 9], strings := #["a", "string_find"] } :=
  ⟨by decide, stepCode_signature (by decide : Opcode.ofCode? 0x8278 = some (.call 2)) (by decide)⟩

end Machine

end StackScript
