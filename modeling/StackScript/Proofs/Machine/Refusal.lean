import StackScript.Proofs.Machine.Frame

/-!
# Calls that are refused

A call takes the name from under its arguments before it looks it up. Where it is refused, this is
all that it has done.

* `Refused` says which names are refused with how many arguments; `resolve_eq_error_iff` finds these
  where a name is looked up.
* `call_eq_error_iff`: a call is refused exactly there, since no operation fails as if it had been
  refused.
* `call_known`, `call_table`: the two operations by which scripts see the names agree.
* `call_refused_iff` is the statement for calls.
-/

namespace StackScript

namespace Machine

open Operation

variable {m m' : Machine} {x : String} {n : Nat} {e : Error} {args below : List Value}

/-! ## Names -/

/-- Why a name is refused with a number of arguments: no operation has it, or the operation that has
it does not take so many. -/
inductive Refused (x : String) (n : Nat) : Error → Prop
  | unknown (hx : x ∉ names) : Refused x n (.unknownOperation x)
  | arity {op : Operation} (hx : op.name = x) (hn : ¬ (op.minArgs ≤ n ∧ n ≤ op.maxArgs)) :
      Refused x n (.arityMismatch x n op.minArgs op.maxArgs)

theorem accepts_iff {op : Operation} : op.accepts n ↔ op.minArgs ≤ n ∧ n ≤ op.maxArgs := by
  simp [accepts]

theorem resolve_of_not_mem (hx : x ∉ names) (n : Nat) :
    resolve x n = .error (.unknownOperation x) := by
  rw [mem_names_iff, Option.not_isSome_iff_eq_none] at hx
  simp only [resolve, hx]

theorem resolve_of_not_accepts {op : Operation} (h : ¬ op.accepts n) :
    resolve op.name n = .error (.arityMismatch op.name n op.minArgs op.maxArgs) := by
  simp only [resolve, ofName?_name]
  exact if_neg fun ha => h ha.2

/-- The bound on the arguments of all calls refuses none that an operation takes. -/
theorem resolve_eq_error_iff : resolve x n = .error e ↔ Refused x n e := by
  constructor
  · intro h
    by_cases hx : x ∈ names
    · obtain ⟨op, -, rfl⟩ := List.mem_map.mp hx
      by_cases ha : op.accepts n
      · rw [resolve_name ha] at h
        cases h
      · rw [resolve_of_not_accepts ha] at h
        cases h
        exact .arity rfl (mt accepts_iff.mpr ha)
    · rw [resolve_of_not_mem hx] at h
      cases h
      exact .unknown hx
  · intro h
    cases h with
    | unknown hx => exact resolve_of_not_mem hx n
    | arity hx hn =>
      subst hx
      exact resolve_of_not_accepts (mt accepts_iff.mp hn)

/-! ## Calls -/

/-- The top of the stack holds the name of what is called and the arguments above it. -/
structure Calling (m : Machine) (x : String) (args below : List Value) : Prop where
  fits : m.depth ≤ m.capacity
  stack : ∃ name, m.stack = args.reverse ++ name :: below ∧ m.textNamed? name = some x

/-- Where the name lay, there is room for a value. -/
theorem Calling.length_lt (h : m.Calling x args below) :
    below.length + args.length < m.capacity := by
  obtain ⟨name, hs, -⟩ := h.stack
  have hd := h.fits
  rw [depth, hs, List.length_append, List.length_cons, List.length_reverse] at hd
  omega

/-- A call looks its name up and runs what it finds, with the name taken out. -/
theorem Calling.call_eq (h : m.Calling x args below) :
    call args.length m =
      ((ofExcept (resolve x args.length) : Action Operation) >>= fun op =>
        runBalanced op x args.length) (m.on (args.reverse ++ below)) := by
  obtain ⟨name, hs, hn⟩ := h.stack
  have hm : m = m.on (args.reverse ++ name :: below) := by rw [← hs, on_self]
  have hlt := h.length_lt
  rw [hm]
  exact call_eq_resolve hn (by rw [room, on_depth, on_capacity]; omega)

/-- A call is refused where its name is, with the name taken out. -/
theorem Calling.call_eq_error_iff (h : m.Calling x args below) (he : e.isRefusal) :
    call args.length m = .error e m' ↔
      Refused x args.length e ∧ m' = m.on (args.reverse ++ below) := by
  rw [h.call_eq, ← resolve_eq_error_iff]
  cases hr : resolve x args.length with
  | error e₁ =>
    show EStateM.Result.error e₁ (m.on (args.reverse ++ below)) = .error e m' ↔ _
    simp [eq_comm]
  | ok op =>
    refine iff_of_false (fun hrun => ?_) (fun hres => nomatch hres.1)
    have hends := op.makes_runBalanced x args.length (m.on (args.reverse ++ below))
    have hrun : runBalanced op x args.length (m.on (args.reverse ++ below)) = .error e m' := hrun
    rw [hrun] at hends
    cases hends with
    | error _ hf =>
      rw [he] at hf
      cases hf

/-- A call of an operation that takes so many arguments leaves what the operation does. -/
theorem Calling.call_run {op : Operation} {result : Value} (h : m.Calling op.name args below)
    (ha : op.accepts args.length)
    (hrun : op.run args.length (m.on (args.reverse ++ below)) = .ok () (m'.on (result :: below))) :
    call args.length m = .ok () (m'.on (result :: below)) := by
  obtain ⟨name, hs, hn⟩ := h.stack
  have hm : m = m.on (args.reverse ++ name :: below) := by rw [← hs, on_self]
  rw [hm]
  exact Operation.call_run hn ha h.length_lt.le hrun

/-! ## The names that scripts see -/

/-- A call for a name is answered with whether an operation has it. -/
theorem call_known {v : Value} (h : m.Calling "metarule_exist" [v] below)
    (hv : m.textNamed? v = some x) :
    call 1 m = .ok () (m.on (.int (if x ∈ names then 1 else 0) :: below)) := by
  have h : m.Calling known.name [v] below := h
  refine h.call_run rfl ?_
  show runKnown (m.on (v :: below)) = _
  have hx : (if (ofName? x).isSome then 1 else 0 : Int32) = if x ∈ names then 1 else 0 :=
    if_congr mem_names_iff.symm rfl rfl
  rw [runKnown, popText_run hv, ← hx]
  exact push_run _ (Nat.lt_of_succ_lt h.length_lt)

/-- A call for the names is answered with a new list of them. -/
theorem call_table (h : m.Calling "get_metarule_table" [] below) (hm : m.arrays.count < 2 ^ 31 - 2)
    (hs : m.strings.size + names.length < UInt32.size) :
    ∃ id vs m', call 0 m = .ok () m' ∧ m.Answers below id (.list (List.toArray vs)) m' ∧
      List.Forall₂ m'.NamesText vs names := by
  have hsize := Nat.lt_of_le_of_lt (size_afterTexts_le m names) hs
  obtain ⟨hnew, vs, hfill, hnames⟩ := filling_afterTexts hm (by decide) hsize
  obtain ⟨name, -, hn⟩ := h.stack
  have hfill : Filling (m.interned "get_metarule_table").1
      (m.arrays.create (Int32.ofNat names.length)).2 (.list vs.toArray) (afterTexts m names) := by
    rw [interned_of_textNamed? hn]
    exact hfill
  have h : m.Calling table.name [] below := h
  refine ⟨_, vs, _, h.call_run rfl ?_, hfill.answers hnew below, hnames⟩
  exact pushTexts_run names h.length_lt

/-- Whatever lies on the stack under a name and any number of arguments above it: the call fails as
unknown exactly if no operation has the name, and for the number of arguments exactly if the
operation that has it does not take so many. The name is then taken out from under the arguments,
and nothing else has changed. The names are those of which a script is told that they are there, and
those that it is given as a list. -/
theorem call_refused_iff (h : m.Calling x args below) :
    (∀ e m', e.isRefusal → (call args.length m = .error e m' ↔
      Refused x args.length e ∧ m' = m.on (args.reverse ++ below))) ∧
    (∀ m₁ v below₁, Calling m₁ "metarule_exist" [v] below₁ → m₁.textNamed? v = some x →
      call 1 m₁ = .ok () (m₁.on (.int (if x ∈ names then 1 else 0) :: below₁))) ∧
    ∀ m₁ below₁, Calling m₁ "get_metarule_table" [] below₁ → m₁.arrays.count < 2 ^ 31 - 2 →
      m₁.strings.size + names.length < UInt32.size →
      ∃ id vs m', call 0 m₁ = .ok () m' ∧ m₁.Answers below₁ id (.list (List.toArray vs)) m' ∧
        List.Forall₂ m'.NamesText vs names :=
  ⟨fun _ _ he => h.call_eq_error_iff he, fun _ _ _ h hv => call_known h hv,
    fun _ _ h hm hs => call_table h hm hs⟩

/-- A name in other letters is unknown, and a name with one argument too many is refused too. -/
theorem call_refused_iff_letters :
    let m : Machine :=
      { stack := [.int 7, .int 6, .string 0], capacity := 3, strings := #["Floor2", "floor2"] }
    let m' := m.on [.int 7, .int 6, .string 1]
    (m.Calling "Floor2" [.int 6, .int 7] [] ∧
      call 2 m = .error (.unknownOperation "Floor2") (m.on [.int 7, .int 6])) ∧
    (m'.Calling "floor2" [.int 6, .int 7] [] ∧
      call 2 m' = .error (.arityMismatch "floor2" 2 1 1) (m'.on [.int 7, .int 6])) := by
  intro m m'
  have h : m.Calling "Floor2" [.int 6, .int 7] [] := ⟨by decide, _, rfl, rfl⟩
  have h' : m'.Calling "floor2" [.int 6, .int 7] [] := ⟨by decide, _, rfl, rfl⟩
  have hunknown : Refused "Floor2" 2 (.unknownOperation "Floor2") := .unknown (by decide)
  have harity : Refused "floor2" 2 (.arityMismatch "floor2" 2 1 1) :=
    @Refused.arity "floor2" 2 .floor rfl (by decide)
  exact ⟨⟨h, ((call_refused_iff h).1 _ _ rfl).mpr ⟨hunknown, rfl⟩⟩,
    h', ((call_refused_iff h').1 _ _ rfl).mpr ⟨harity, rfl⟩⟩

end Machine

end StackScript
