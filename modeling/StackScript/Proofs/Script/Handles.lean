import StackScript.CommandLine
import StackScript.Proofs.Machine.Handles

/-!
# Scripts never lose the text of a value

* `Command.keeps_run`: a command keeps every handle on the stack and in the arrays one that names a
  text.
* `holds_run`: so does a run, and the texts of its beginning are there to its end (`grows_run`).
* `allKnown_freshRun`: on a fresh machine no run fails for a handle without a text, and every value
  is printed as its text.
-/

namespace StackScript

namespace Script

open Machine

variable {vs : List Value}

theorem Literal.keeps_toValue (l : Literal) : Keeps vs l.toValue fun v => [v] := by
  cases l with
  | int n => exact .pure _ (by simp [Value.isString])
  | float x => exact .pure _ (by simp [Value.isString])
  | text s => exact .intern s

theorem Literal.keeps_mapM_toValue (ls : List Literal) :
    Keeps vs (ls.mapM Literal.toValue) fun us => us := by
  induction ls generalizing vs with
  | nil =>
    rw [List.mapM_nil]
    exact .pure _ (by simp)
  | cons l ls ih =>
    rw [List.mapM_cons]
    refine .bind l.keeps_toValue fun v => .bind ih fun us => .pure _ fun w hw _ => ?_
    rcases List.mem_cons.mp hw with rfl | hw
    · exact List.mem_append_right _ List.mem_cons_self
    · exact List.mem_append_left _ hw

/-- Every command keeps all values known. -/
theorem Command.keeps_run (c : Command) : Keeps vs c.run := by
  cases c with
  | push l =>
    refine .bind l.keeps_toValue fun v => ?_
    exact .bind (.push fun _ => List.mem_cons_self) fun _ => .pure _ (by simp)
  | op code => exact .bind (keeps_execute code) fun _ => .pure _ (by simp)
  | call name args =>
    refine .bind (Literal.keeps_mapM_toValue args) fun values => ?_
    refine .bind (keeps_callNamed name fun v hv => List.mem_append_left _ hv) fun _ => ?_
    exact .pure _ (by simp)
  | print => exact .bind .pop fun v => .get_bind_of_forall fun m => .pure _ (by simp)

/-! ## Runs -/

/-- What a run keeps: the texts that are there, and that all values are known. -/
theorem holds_run (lines : List Line) {m : Machine} (hm : m.Holds []) :
    Grows m (run lines m).machine ∧ (run lines m).machine.Holds [] ∧
      ((run lines m).machine.strings.size < UInt32.size →
        ∀ e, (run lines m).error = some e → e.isInvalidHandle = false) := by
  induction lines generalizing m with
  | nil => exact ⟨.refl m, hm, fun _ e he => by cases he⟩
  | cons line lines ih =>
    have h := line.command.keeps_run m hm
    cases hr : line.command.run m with
    | error e m' =>
      rw [hr] at h
      simp only [run, hr]
      cases h with
      | error hg hh he =>
        refine ⟨hg, hh, fun hs e' he' => ?_⟩
        obtain rfl := Option.some.inj he'
        exact he hs
    | ok printed m' =>
      rw [hr] at h
      simp only [run, hr]
      cases h with
      | ok hg hh =>
        obtain ⟨hg', hh', he⟩ := ih hh
        exact ⟨hg.trans hg', hh', he⟩

/-- What comes first in a script is done first, and what comes after it only if that succeeded. -/
theorem machine_run_append (first rest : List Line) (m : Machine) :
    (run (first ++ rest) m).machine =
      if (run first m).error = none then (run rest (run first m).machine).machine
      else (run first m).machine := by
  induction first generalizing m with
  | nil => rfl
  | cons line first ih =>
    cases hr : line.command.run m with
    | error e m' => simp [run, hr]
    | ok printed m' => simp only [List.cons_append, run, hr, ih]

/-- The texts of the beginning of a run are there to its end. -/
theorem grows_run {done lines : List Line} (h : done <+: lines) {m : Machine} (hm : m.Holds []) :
    Grows (run done m).machine (run lines m).machine := by
  obtain ⟨rest, rfl⟩ := h
  rw [machine_run_append]
  split
  · exact (holds_run rest (holds_run done hm).2.1).1
  · exact .refl _

theorem valueText_of_knows {m : Machine} {v : Value} (h : m.Knows v) :
    ∃ text, m.valueText v = .ok text := by
  cases v with
  | string handle =>
    obtain ⟨text, ht⟩ := h
    exact ⟨text, by simp [valueText, ht]⟩
  | int n | float x | pointer address => exact ⟨_, rfl⟩

/-- A value with a text is printed as its text. -/
theorem Command.run_print {m : Machine} {v : Value} {rest : List Value} {text : String}
    (hk : m.stack = v :: rest) (ht : m.valueText v = .ok text) :
    Command.print.run m = .ok (text ++ "\n") { m with stack := rest } := by
  have hd : ({ m with stack := rest } : Machine).display v = text := by
    have e : ({ m with stack := rest } : Machine).valueText v = m.valueText v := by
      cases v <;> rfl
    rw [Machine.display, e, ht]
  simp only [Command.run, Bind.bind, EStateM.bind, pop_cons hk, MonadState.get, getThe,
    MonadStateOf.get, EStateM.get, hd]
  rfl

/-! ## Runs on a fresh machine -/

theorem holds_machine (o : Options) (d : Disk) : (CommandLine.machine o d).Holds [] :=
  fun _ => ⟨⟨fun v hv => absurd hv List.not_mem_nil, ArrayStore.all_empty⟩, by simp⟩

/-- A run on a fresh machine with options and a disk. -/
def freshRun (o : Options) (d : Disk) (lines : List Line) : Outcome :=
  run lines (CommandLine.machine o d)

/-- At every point of a run, every handle on the stack and in the arrays names a text, as long as
there are handles for all texts. So no run fails for a handle without a text, and whatever is printed
is printed as its text. -/
theorem allKnown_freshRun (o : Options) (d : Disk) {lines : List Line}
    (hs : (freshRun o d lines).machine.strings.size < UInt32.size) :
    (∀ done, done <+: lines → (freshRun o d done).machine.AllKnown) ∧
      (∀ handle, (freshRun o d lines).error ≠ some (.invalidHandle handle)) ∧
      ∀ done number rest v vs, lines = done ++ ⟨number, .print⟩ :: rest →
        (freshRun o d done).machine.stack = v :: vs →
          ∃ text, (freshRun o d done).machine.valueText v = .ok text ∧
            Command.print.run (freshRun o d done).machine =
              .ok (text ++ "\n") { (freshRun o d done).machine with stack := vs } := by
  have hm := holds_machine o d
  have known : ∀ done, done <+: lines → (freshRun o d done).machine.AllKnown := fun done hd =>
    ((holds_run done hm).2.1 (Nat.lt_of_le_of_lt (grows_run hd hm).size_le hs)).1
  refine ⟨known, fun handle he => ?_, fun done number rest v vs hl hk => ?_⟩
  · have := (holds_run lines hm).2.2 hs _ he
    cases this
  · have hv := (known done ⟨_, hl.symm⟩).stack v (hk ▸ List.mem_cons_self)
    obtain ⟨text, ht⟩ := valueText_of_knows hv
    exact ⟨text, ht, Command.run_print hk ht⟩

/-- A text that the script does not hold is fetched from an array and printed. -/
theorem allKnown_freshRun_table :
    let done : List Line := [⟨1, .call "get_metarule_table" []⟩, ⟨2, .push (.int 4)⟩,
      ⟨3, .op Opcode.getArray.code⟩]
    let m := (freshRun {} {} done).machine
    (freshRun {} {} (done ++ [⟨4, .print⟩])).machine.strings.size < UInt32.size ∧
      m.stack = [.string 4] ∧ m.valueText (.string 4) = .ok "metarule_exist" ∧ m.AllKnown ∧
      ∃ text, m.valueText (.string 4) = .ok text ∧
        Command.print.run m = .ok (text ++ "\n") { m with stack := [] } := by
  intro done m
  have hs : (freshRun {} {} (done ++ [⟨4, .print⟩])).machine.strings.size < UInt32.size := by
    decide +kernel
  have hk : m.stack = [.string 4] := by decide +kernel
  have ht : m.valueText (.string 4) = .ok "metarule_exist" := by decide +kernel
  obtain ⟨known, -, printed⟩ := allKnown_freshRun {} {} hs
  exact ⟨hs, hk, ht, known done ⟨_, rfl⟩, printed done 4 [] _ [] rfl hk⟩

end Script

end StackScript
