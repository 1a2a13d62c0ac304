import StackScript.Host
import StackScript.Proofs.Machine.Preserve

/-!
# What a session preserves

A relation between machines that admits the changes of an action (`Machine.Admits`) and the end of
the program holds between the machines before and after any session (`AdmitsAll.session`), whatever
the host asks for and whether it is done or fails, and so between any two points of a session
(`AdmitsAll.session_of_isPrefix`).
-/

namespace StackScript

open Machine

/-- A preorder on machines that admits every change of an action, and that the program stops. -/
structure AdmitsAll (R : Machine → Machine → Prop) : Prop extends Admits R where
  stop : ∀ m e, R m (m.stop e)

namespace AdmitsAll

variable {R : Machine → Machine → Prop}

theorem pushText (hR : AdmitsAll R) (text : String) (m : Machine) :
    R m (after (pushText text m)) :=
  hR.bind ((Quiet.intern text).preserves hR.toAdmits m) fun v => hR.push v

/-- Whatever a value that was taken is read as. -/
theorem pop_bind (hR : AdmitsAll R) {α : Type} {f : Value → Action α} (hf : ∀ v, Quiet (f v))
    (m : Machine) : R m (after ((pop >>= f) m)) :=
  hR.bind (hR.pop m) fun v => (hf v).preserves hR.toAdmits

theorem popText (hR : AdmitsAll R) (m : Machine) : R m (after (popText m)) := by
  refine hR.pop_bind (fun v => ?_) m
  cases v with
  | string handle => exact .textOf handle
  | int n | float x | pointer address => exact .throw rfl

theorem popPointer (hR : AdmitsAll R) (m : Machine) : R m (after (popPointer m)) := by
  refine hR.pop_bind (fun v => ?_) m
  cases v with
  | pointer address => exact .pure address
  | int n =>
    dsimp only
    split
    · exact .pure 0
    · exact .throw rfl
  | float x | string handle => exact .throw rfl

theorem execute (hR : AdmitsAll R) (code : UInt16) (m : Machine) :
    R m (after (execute code m)) := by
  have h := hR.stepCode code m
  unfold Machine.execute
  split
  · exact hR.refl m
  · cases hr : Machine.stepCode code m with
    | ok x m' =>
      rw [hr] at h
      exact h
    | error e m' =>
      rw [hr] at h
      dsimp only [after]
      split
      · exact hR.trans h (hR.stop m' e)
      · exact h

theorem callNamed (hR : AdmitsAll R) (name : String) (args : List Value) (m : Machine) :
    R m (after (callNamed name args m)) := by
  unfold Machine.callNamed
  cases Opcode.ofArgs? args.length with
  | none => exact hR.refl m
  | some op =>
    exact hR.bind (hR.pushText name m) fun _ m => hR.bind (hR.pushMany args m) fun _ =>
      hR.execute op.code

/-! ## Scripts -/

theorem toValue (hR : AdmitsAll R) (l : Script.Literal) (m : Machine) :
    R m (after (l.toValue m)) := by
  cases l with
  | int n | float x => exact hR.refl m
  | text s => exact (Quiet.intern s).preserves hR.toAdmits m

theorem mapM_toValue (hR : AdmitsAll R) (ls : List Script.Literal) (m : Machine) :
    R m (after (ls.mapM Script.Literal.toValue m)) := by
  induction ls generalizing m with
  | nil =>
    rw [List.mapM_nil]
    exact hR.refl m
  | cons l ls ih =>
    rw [List.mapM_cons]
    exact hR.bind (hR.toValue l m) fun v m => hR.bind (ih m) fun vs => hR.refl

theorem command (hR : AdmitsAll R) (c : Script.Command) (m : Machine) : R m (after (c.run m)) := by
  cases c with
  | push l =>
    refine hR.bind (hR.toValue l m) fun v m => ?_
    exact hR.bind (hR.push v m) fun _ => hR.refl
  | op code => exact hR.bind (hR.execute code m) fun _ => hR.refl
  | call name args =>
    refine hR.bind (hR.mapM_toValue args m) fun vs m => ?_
    exact hR.bind (hR.callNamed name vs m) fun _ => hR.refl
  | print => exact hR.bind (hR.pop m) fun v m => hR.bind (hR.refl m) fun _ => hR.refl

theorem run (hR : AdmitsAll R) (lines : List Script.Line) (m : Machine) :
    R m (Script.run lines m).machine := by
  induction lines generalizing m with
  | nil => exact hR.refl m
  | cons line lines ih =>
    have h := hR.command line.command m
    cases hr : line.command.run m with
    | ok printed m' =>
      rw [hr] at h
      simp only [Script.run, hr]
      exact hR.trans h (ih m')
    | error e m' =>
      rw [hr] at h
      simp only [Script.run, hr]
      exact h

/-! ## Sessions -/

theorem act (hR : AdmitsAll R) (r : Host.Request) (m : Machine) : R m (after (r.act m)) := by
  cases r with
  | push v => exact hR.push v m
  | pushText text => exact hR.pushText text m
  | pop => exact hR.pop_bind (fun _ => .pure ()) m
  | popInt => exact hR.bind (hR.pop_bind .asInt m) fun _ => hR.refl
  | popFloat => exact hR.bind (hR.pop_bind .asFloat m) fun _ => hR.refl
  | popText => exact hR.bind (hR.popText m) fun _ => hR.refl
  | popPointer => exact hR.bind (hR.popPointer m) fun _ => hR.refl
  | intern text =>
    exact hR.bind ((Quiet.intern text).preserves hR.toAdmits m) fun _ => hR.refl
  | execute code => exact hR.execute code m
  | call name args => exact hR.callNamed name args m
  | script lines =>
    have h := hR.run lines m
    simp only [Host.Request.act, Host.runScript]
    split <;> exact h
  | stop reason => exact hR.stop m reason

theorem serve (hR : AdmitsAll R) (m : Machine) (r : Host.Request) : R m (Host.serve m r) := by
  have h := hR.act r m
  unfold Host.serve
  cases hr : r.act m <;> rw [hr] at h <;> exact h

/-- Whatever a host asks for, the relation holds between its beginning and its end. -/
theorem session (hR : AdmitsAll R) (m : Machine) (rs : List Host.Request) :
    R m (Host.session m rs) := by
  induction rs generalizing m with
  | nil => exact hR.refl m
  | cons r rs ih => exact hR.trans (hR.serve m r) (ih (Host.serve m r))

/-- So it does between two points of a session. -/
theorem session_of_isPrefix (hR : AdmitsAll R) (m : Machine) {rs rs' : List Host.Request}
    (h : rs <+: rs') : R (Host.session m rs) (Host.session m rs') := by
  obtain ⟨rest, rfl⟩ := h
  rw [Host.session_append]
  exact hR.session _ rest

end AdmitsAll

end StackScript
