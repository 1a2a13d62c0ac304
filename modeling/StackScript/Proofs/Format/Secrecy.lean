import Mathlib
import StackScript.Format.Template

/-!
# What a template does not show

What a run of a template prints depends on its arguments only up to the addresses of objects, and on
the table of texts only at the handles that are arguments.

* `Alike v w`: the values are the same, or both are objects of the host.
* `render?_of_alike` and `read_of_alike`: a conversion, and with it every step of a run, does the
  same for alike arguments.
* `format?_of_alike`: so does a run.
-/

namespace StackScript.Format

open Text

/-- Two values are the same, or both are objects, whatever their addresses. -/
inductive Alike : Value → Value → Prop
  | refl (v : Value) : Alike v v
  | objects (address address' : UInt64) : Alike (.pointer address) (.pointer address')

variable {strings strings' : Strings} {args args' : List Value}

/-- Two tables have the same texts for the handles among some values. -/
def AgreeOn (strings strings' : Strings) (vs : List Value) : Prop :=
  ∀ handle, .string handle ∈ vs → strings handle = strings' handle

/-! ## One conversion -/

theorem textArgument_congr {v : Value} (hs : AgreeOn strings strings' [v]) :
    textArgument strings v = textArgument strings' v := by
  cases v with
  | string handle => rw [textArgument, textArgument, hs handle List.mem_cons_self]
  | int n | float x | pointer address => rfl

theorem render_congr {v : Value} (hs : AgreeOn strings strings' [v]) (spec : Spec)
    (conversion : Conversion) :
    conversion.render strings spec v = conversion.render strings' spec v := by
  cases conversion with
  | integer form => rfl
  | float form capital => rfl
  | text => rw [Conversion.render, Conversion.render, textArgument_congr hs]

/-- An object is printed before the letter is looked at, so no letter shows its address. -/
theorem render?_of_alike {v w : Value} (h : Alike v w) (hs : AgreeOn strings strings' [v])
    (spec : Spec) (letter : Char) :
    render? strings spec letter v = render? strings' spec letter w := by
  cases h with
  | objects address address' => rfl
  | refl =>
    cases v with
    | pointer address => rfl
    | int n | float x | string handle =>
      unfold render?
      exact congrArg (Option.map · _) (funext (render_congr hs spec))

/-! ## A run -/

/-- The same place of two argument lists that are alike, also past their end. -/
theorem alike_argument (ha : List.Forall₂ Alike args args') (k : Nat) :
    Alike (argument args k) (argument args' k) := by
  have hlen := ha.length_eq
  unfold argument
  rw [← hlen]
  rcases Nat.lt_or_ge (min k (args.length - 1)) args.length with hk | hk
  · rw [← List.getElem_eq_getD (h := hk), ← List.getElem_eq_getD (h := hlen ▸ hk)]
    exact (List.forall₂_iff_get.mp ha).2 _ hk (hlen ▸ hk)
  · rw [List.getD_eq_default _ _ hk, List.getD_eq_default _ _ (hlen ▸ hk)]
    exact .refl _

/-- The argument of a conversion is one of the arguments, or the integer that stands for none. -/
theorem agreeOn_argument (hs : AgreeOn strings strings' args) (k : Nat) :
    AgreeOn strings strings' [argument args k] := by
  intro handle hmem
  have harg := List.mem_singleton.mp hmem
  refine hs handle ?_
  unfold argument at harg
  rcases Nat.lt_or_ge (min k (args.length - 1)) args.length with hk | hk
  · rw [← List.getElem_eq_getD (h := hk)] at harg
    exact harg ▸ List.getElem_mem hk
  · rw [List.getD_eq_default _ _ hk] at harg
    cases harg

/-- A step of a run takes its argument from the list and its text from the table, and uses neither
in another way. -/
theorem read_of_alike (ha : List.Forall₂ Alike args args') (hs : AgreeOn strings strings' args) :
    Progress.read strings args = Progress.read strings' args' := by
  have hconvert : Progress.convert strings args = Progress.convert strings' args' := by
    funext p collected letter
    simp only [Progress.convert,
      render?_of_alike (alike_argument ha p.taken) (agreeOn_argument hs p.taken)]
  funext p c
  unfold Progress.read
  rw [hconvert]

theorem alike_self (args : List Value) : List.Forall₂ Alike args args :=
  List.forall₂_same.mpr fun v _ => .refl v

/-- Runs of one template on alike arguments, with tables that agree on the handles among them, have
the same outcome. So no address is ever shown, and without a text among the arguments the table is
not used. -/
theorem format?_of_alike (template : String) :
    (∀ {strings strings' : Strings} {args args' : List Value}, List.Forall₂ Alike args args' →
      AgreeOn strings strings' args →
        format? strings template args = format? strings' template args') ∧
      (∀ {strings : Strings} {args args' : List Value}, List.Forall₂ Alike args args' →
        format? strings template args = format? strings template args') ∧
      ∀ {strings strings' : Strings} {args : List Value}, (∀ v ∈ args, v.isString = false) →
        format? strings template args = format? strings' template args := by
  have main : ∀ {strings strings' : Strings} {args args' : List Value},
      List.Forall₂ Alike args args' → AgreeOn strings strings' args →
        format? strings template args = format? strings' template args' := by
    intro strings strings' args args' ha hs
    unfold format?
    rw [read_of_alike ha hs]
  refine ⟨main, fun ha => main ha fun _ _ => rfl, fun hn => main (alike_self _) ?_⟩
  intro handle hmem
  cases hn _ hmem

/-- Two objects, one asked for as an address and one as a text, beside a text that both tables
have. -/
theorem format?_of_alike_objects :
    let args : List Value := [.pointer 1, .string 0, .pointer 2]
    let args' : List Value := [.pointer 3, .string 0, .pointer 0]
    let strings : Strings := fun _ => some "a"
    let strings' : Strings := fun handle => if handle = 0 then some "a" else none
    List.Forall₂ Alike args args' ∧ AgreeOn strings strings' args ∧
      format? strings "%p %s %5s" args = format? strings' "%p %s %5s" args' := by
  intro args args' strings strings'
  have ha : List.Forall₂ Alike args args' :=
    .cons (.objects 1 3) (.cons (.refl _) (.cons (.objects 2 0) .nil))
  have hs : AgreeOn strings strings' args := by
    intro handle hmem
    have h0 : handle = 0 := by simpa [args] using hmem
    subst h0
    rfl
  exact ⟨ha, hs, (format?_of_alike "%p %s %5s").1 ha hs⟩

end StackScript.Format
