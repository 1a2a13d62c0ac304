import StackScript.Proofs.Script.Halt

/-!
# Failures that leave an opcode

Which errors an opcode ends with. What goes wrong in a settings file or in a template is dealt with
where it happens, a call leaves its stack balanced, and there is room for what is put back, so that
only the fault of a call, an unknown opcode or a version pushed on a full stack comes out.

* `HasEffect.isCallFault_of_error`: an action that holds no more values than it takes fails only
  with a fault of the call.
* `le_depth_of_resolveCall`: when the operation of a call begins, its arguments are on the stack.
* `execute_error`: every failure of an opcode is fatal, and the program has stopped with it.
-/

namespace StackScript

namespace Error

/-- Whether an error is one that no opcode ends with: it comes from the name of a setting, a
settings file, a template or the options, or from an operation that left the stack unbalanced. -/
def isInternal : Error → Bool
  | stackImbalance .. | malformedTriplet _ | storageUnavailable _ | keyNotFound _
  | formatOverflow _ | io _ | malformedOptions | options _ => true
  | _ => false

/-- Whether an error is that of a full stack. -/
def isOverflow : Error → Bool
  | stackOverflow _ => true
  | _ => false

/-- A fault of a call is fatal, and neither of the two. -/
theorem isFatal_of_isCallFault {e : Error} (h : e.isCallFault) :
    e.isFatal ∧ e.isInternal = false ∧ e.isOverflow = false := by
  cases e with
  | unknownOperation _ | arityMismatch _ _ _ _ | stackUnderflow | typeMismatch _ _
  | invalidHandle _ => exact ⟨rfl, rfl, rfl⟩
  | _ => cases h

end Error

namespace Machine

variable {m m' : Machine} {e : Error}

/-! ## Calls -/

/-- An action whose values are all there is to its room fails only with a fault of the call: with
too few values it starves, and with enough there is room for whatever it puts back. -/
theorem HasEffect.isCallFault_of_error {n k : Nat} {a : Action Unit} (h : HasEffect n n k a)
    (hm : m.depth ≤ m.capacity) (he : a m = .error e m') : e.isCallFault := by
  rw [depth] at hm
  rcases Nat.lt_or_ge m.stack.length n with hd | hd
  · obtain ⟨e₁, m₁, h₁, -, hf⟩ := h.starved hd
    rw [h₁] at he
    cases he
    exact hf
  · have hown : (m.stack.take n).length = n := by
      rw [List.length_take]
      omega
    have hroom : n + (m.stack.drop n).length ≤ m.capacity := by
      rw [List.length_drop]
      omega
    have hself : m.on (m.stack.take n ++ m.stack.drop n) = m := by
      rw [List.take_append_drop, on_self]
    rcases h.enough hown hroom with ⟨m₁, own', -, hr⟩ | ⟨e₁, m₁, own', -, hf, hr⟩
    · have h₁ := hr _ rfl
      rw [hself, he] at h₁
      cases h₁
    · have h₁ := hr _ rfl
      rw [hself, he] at h₁
      cases h₁
      exact hf

theorem exists_of_bind_eq_ok {α β : Type} {a : Action α} {f : α → Action β} {y : β}
    (h : (a >>= f) m = .ok y m') : ∃ x m₁, a m = .ok x m₁ ∧ f x m₁ = .ok y m' := by
  simp only [Bind.bind, EStateM.bind] at h
  cases ha : a m with
  | ok x m₁ =>
    rw [ha] at h
    exact ⟨x, m₁, rfl, h⟩
  | error e₁ m₁ =>
    rw [ha] at h
    cases h

theorem length_of_popMany {n : Nat} {vs : List Value} (h : popMany n m = .ok vs m') :
    vs.length = n := by
  induction n generalizing m m' vs with
  | zero =>
    cases h
    rfl
  | succ n ih =>
    obtain ⟨v, m₁, -, h⟩ := exists_of_bind_eq_ok h
    obtain ⟨us, m₂, hus, h⟩ := exists_of_bind_eq_ok h
    cases h
    rw [List.length_append, ih hus]
    rfl

theorem depth_of_pushMany {vs : List Value} (h : pushMany vs m = .ok () m') :
    m'.depth = m.depth + vs.length := by
  induction vs generalizing m with
  | nil =>
    cases h
    rfl
  | cons v vs ih =>
    obtain ⟨_, m₁, hv, h⟩ := exists_of_bind_eq_ok h
    have hd : m₁.depth = m.depth + 1 := by
      unfold push at hv
      split at hv <;> cases hv
      rfl
    rw [ih h, hd, List.length_cons]
    omega

/-- A call up to its operation: the operation with its name, and the arguments alone on the
stack. -/
def resolveCall (args : Nat) : Action (Operation × String) := do
  let values ← popMany args
  let name ← popText
  pushMany values
  let op ← ofExcept (resolve name args)
  pure (op, name)

theorem call_eq_bind (args : Nat) :
    call args = resolveCall args >>= fun p => runBalanced p.1 p.2 args := by
  simp only [call, resolveCall, bind_assoc, pure_bind]

/-- When an operation begins, the stack is at least as deep as its arguments are many, so that their
number can be subtracted from its depth. -/
theorem le_depth_of_resolveCall {args : Nat} {p : Operation × String}
    (h : resolveCall args m = .ok p m') : args ≤ m'.depth := by
  obtain ⟨values, m₁, hvs, h⟩ := exists_of_bind_eq_ok h
  obtain ⟨name, m₂, -, h⟩ := exists_of_bind_eq_ok h
  obtain ⟨_, m₃, hp, h⟩ := exists_of_bind_eq_ok h
  obtain ⟨op, m₄, hop, h⟩ := exists_of_bind_eq_ok h
  cases h
  have hm : m' = m₃ := by
    cases hr : resolve name args <;> rw [hr] at hop <;> cases hop
    rfl
  rw [hm, depth_of_pushMany hp, length_of_popMany hvs]
  exact Nat.le_add_left args m₂.depth

/-! ## Opcodes -/

/-- The numbers of the opcodes that put a part of the version on the stack. -/
def versionCodes : List UInt16 :=
  [Opcode.versionMajor.code, Opcode.versionMinor.code, Opcode.versionBuild.code]

theorem code_eq_of_ofCode? {code : UInt16} {op : Opcode} (h : Opcode.ofCode? code = some op) :
    op.code = code := by
  simpa using List.find?_some h

/-- Exactly the version opcodes take nothing from the stack. -/
theorem pops_eq_zero_iff {op : Opcode} : op.pops = 0 ↔ op.code ∈ versionCodes := by
  cases op with
  | call args =>
    have h : ∀ args, (Opcode.call args).code ∉ versionCodes := by decide
    exact iff_of_false (Nat.succ_ne_zero args.val) (h args)
  | _ => decide

theorem exists_opcode_of_mem_versionCodes {code : UInt16} (h : code ∈ versionCodes) :
    ∃ op, Opcode.ofCode? code = some op := by
  simp only [versionCodes, List.mem_cons, List.not_mem_nil, or_false] at h
  rcases h with rfl | rfl | rfl <;> exact ⟨_, Opcode.ofCode?_code _⟩

/-- A version fails on a full stack only, and any other opcode by a fault of the call or because it
is none. -/
theorem stepCode_error {code : UInt16} (hm : m.depth ≤ m.capacity)
    (h : stepCode code m = .error e m') :
    (code ∈ versionCodes ∧ m.depth = m.capacity ∧ e = .stackOverflow m.capacity) ∨
      (code ∉ versionCodes ∧ (e.isCallFault ∨ e = .unknownOpcode code)) := by
  unfold stepCode at h
  cases hc : Opcode.ofCode? code with
  | none =>
    rw [hc] at h
    cases h
    refine .inr ⟨fun hmem => ?_, .inr rfl⟩
    obtain ⟨op, hop⟩ := exists_opcode_of_mem_versionCodes hmem
    rw [hc] at hop
    cases hop
  | some op =>
    rw [hc] at h
    have hcode := code_eq_of_ofCode? hc
    rcases Nat.eq_zero_or_pos op.pops with h0 | hpos
    · obtain ⟨-, v, hv⟩ := step_of_pops_eq_zero h0
      have hmem : code ∈ versionCodes := hcode ▸ pops_eq_zero_iff.mp h0
      simp only [hv, push] at h
      split at h <;> cases h
      rename_i hfull
      exact .inl ⟨hmem, Nat.le_antisymm hm (Nat.le_of_not_lt hfull), rfl⟩
    · have hmax : max op.pops op.pushes = op.pops := by
        have := pushes_le_one op
        omega
      have heffect := hasEffect_step op
      rw [hmax] at heffect
      refine .inr ⟨fun hmem => ?_, .inl (heffect.isCallFault_of_error hm h)⟩
      exact Nat.ne_of_gt hpos (pops_eq_zero_iff.mpr (hcode ▸ hmem))

/-- A running program that fails at an opcode has stopped with the failure, which is fatal and none
of settings, templates or the balance of the stack; it is that of a full stack exactly if a version
was to go on a full stack. A call by any number of arguments finds room for all that it puts back,
and has its arguments on the stack when its operation begins. -/
theorem execute_error (hm : m.depth ≤ m.capacity) (hs : m.stopped = none) :
    (∀ code e m', execute code m = .error e m' →
      e.isFatal ∧ m'.stopped = some e ∧ e.isInternal = false ∧
        (e.isOverflow ↔ code ∈ versionCodes ∧ m.depth = m.capacity)) ∧
      ∀ args,
        (∀ e m', call args m = .error e m' → e.isInternal = false ∧ e.isOverflow = false) ∧
        ∀ op name m', resolveCall args m = .ok (op, name) m' →
          call args m = runBalanced op name args m' ∧ args ≤ m'.depth := by
  refine ⟨fun code e m' h => ?_, fun args => ⟨fun e m' h => ?_, fun op name m' h => ?_⟩⟩
  · have hstop := stopped_execute hs code
    rw [h] at hstop
    simp only [execute, hs] at h
    cases hr : stepCode code m with
    | ok x m₁ =>
      rw [hr] at h
      cases h
    | error e₁ m₁ =>
      rw [hr] at h
      cases h
      have hcases := stepCode_error hm hr
      have hfatal : e.isFatal := by
        rcases hcases with ⟨-, -, rfl⟩ | ⟨-, hf | rfl⟩
        · rfl
        · exact (Error.isFatal_of_isCallFault hf).1
        · rfl
      refine ⟨hfatal, ?_, ?_⟩
      · simpa [after, recorded, hfatal] using hstop
      · rcases hcases with ⟨hv, hd, rfl⟩ | ⟨hv, hf | rfl⟩
        · simp [Error.isInternal, Error.isOverflow, hv, hd]
        · simp [Error.isFatal_of_isCallFault hf, hv]
        · simp [Error.isInternal, Error.isOverflow, hv]
  · have hf := (hasEffect_call args).isCallFault_of_error hm h
    exact (Error.isFatal_of_isCallFault hf).2
  · refine ⟨?_, le_depth_of_resolveCall h⟩
    rw [call_eq_bind]
    simp only [Bind.bind, EStateM.bind, h]

/-- A version finds no room on a stack of one value, and the program has stopped. -/
theorem execute_error_version :
    let m : Machine := { stack := [.int 5], capacity := 1 }
    m.depth ≤ m.capacity ∧ m.stopped = none ∧
      ∃ m', execute 0x8210 m = .error (.stackOverflow 1) m' ∧
        m'.stopped = some (.stackOverflow 1) := by
  intro m
  have hrun : execute 0x8210 m = .error (.stackOverflow 1) (m.stop (.stackOverflow 1)) := by rfl
  obtain ⟨h, -⟩ := execute_error (m := m) (by decide) rfl
  obtain ⟨-, hstop, -⟩ := h 0x8210 (.stackOverflow 1) _ hrun
  exact ⟨by decide, rfl, _, hrun, hstop⟩

end Machine

end StackScript
