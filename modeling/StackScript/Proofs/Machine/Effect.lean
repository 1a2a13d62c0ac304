import Mathlib
import StackScript.Machine.Step

/-!
# Stack effects

How many values an action takes from the stack and how many it leaves in their place, read off the
way in which it is put together.

* `Quiet a`: the action `a` neither reads nor changes the stack.
* `HasEffect room n k a`: `a` takes `n` values and leaves `k`, never holds more than `room` values
  on the way, and is done with what it takes before it puts anything back.
* `hasEffect_run`, `hasEffect_call` and `hasEffect_step` give the effects of all operations, calls
  and opcodes. What an effect means for a run is in `Proofs/Machine/Signature.lean` and
  `Proofs/Machine/Preserve.lean`.
-/

namespace StackScript

open Text Numeral

/-- Whether an error is a fault of operands, or of the name or the number of arguments of a call. -/
def Error.isCallFault : Error → Bool
  | unknownOperation _ | arityMismatch .. | stackUnderflow | typeMismatch ..
  | invalidHandle _ => true
  | _ => false

namespace Machine

/-- The machine with another stack. -/
def on (m : Machine) (stack : List Value) : Machine := { m with stack }

/-! ## Actions beside the stack -/

/-- An action that neither reads nor changes the stack, and fails only with a fault of the call. -/
inductive Quiet : {α : Type} → Action α → Prop
  | pure {α : Type} (x : α) : Quiet (pure x : Action α)
  | throw {α : Type} {e : Error} (he : e.isCallFault) : Quiet (throw e : Action α)
  | textOf (handle : UInt32) : Quiet (textOf handle)
  | intern (text : String) : Quiet (intern text)
  | createArray (length : Int32) : Quiet (createArray length)
  | setArray (id : Int32) (key value : Value) : Quiet (setArray id key value)
  | writeSetting (name value : String) : Quiet (Operation.writeSetting name value)
  | log (line : String) : Quiet (log line)
  | get {α : Type} {f : Machine → Action α} (hf : ∀ m stack, f (m.on stack) = f m)
      (h : ∀ m, Quiet (f m)) : Quiet (get >>= f)
  | bind {α β : Type} {a : Action α} {f : α → Action β} (ha : Quiet a) (h : ∀ x, Quiet (f x)) :
      Quiet (a >>= f)

theorem Quiet.except {α : Type} {x : Except Error α} (h : ∀ e, x = .error e → e.isCallFault) :
    Quiet (ofExcept x : Action α) := by
  cases x with
  | ok x => exact .pure x
  | error e => exact .throw (h e rfl)

theorem Quiet.asInt (v : Value) : Quiet (ofExcept v.asInt : Action Int32) :=
  .except fun e h => by cases v <;> cases h <;> rfl

theorem Quiet.asFloat (v : Value) : Quiet (ofExcept v.asFloat : Action Single) :=
  .except fun e h => by cases v <;> cases h <;> rfl

/-! ## Effects -/

/-- An action with `n` values of its own on top of the stack leaves `k` in their place and has never
more than `room` on the way. It puts values back only when it has taken all `n`. -/
inductive HasEffect (room : Nat) : Nat → Nat → Action Unit → Prop
  | quiet {a : Action Unit} (ha : Quiet a) : HasEffect room 0 0 a
  | throw {n k : Nat} {e : Error} (he : e.isCallFault) (hn : n ≤ room) :
      HasEffect room n k (throw e)
  | push (v : Value) (hr : 0 < room) : HasEffect room 0 1 (push v)
  | pop_bind {n k : Nat} {f : Value → Action Unit} (h : ∀ v, HasEffect room n k (f v)) :
      HasEffect room (n + 1) k (pop >>= f)
  | quiet_bind {α : Type} {n k : Nat} {a : Action α} {f : α → Action Unit} (ha : Quiet a)
      (hn : n ≤ room) (h : ∀ x, HasEffect room n k (f x)) : HasEffect room n k (a >>= f)
  | get_bind {n k : Nat} {f : Machine → Action Unit} (hf : ∀ m stack, f (m.on stack) = f m)
      (h : ∀ m, HasEffect room n k (f m)) : HasEffect room n k (get >>= f)
  | pushMany_bind {k : Nat} {vs : List Value} {f : Unit → Action Unit} (hr : vs.length ≤ room)
      (h : HasEffect room vs.length k (f ())) : HasEffect room 0 k (pushMany vs >>= f)
  | balanced {n : Nat} {op : Operation} (name : String) (h : HasEffect room n 1 (op.run n)) :
      HasEffect room n 1 (runBalanced op name n)

namespace HasEffect

variable {room n k : Nat}

theorem popInt_bind {f : Int32 → Action Unit} (hn : n ≤ room) (h : ∀ x, HasEffect room n k (f x)) :
    HasEffect room (n + 1) k (popInt >>= f) := by
  rw [popInt, bind_assoc]
  exact pop_bind fun v => quiet_bind (.asInt v) hn h

theorem popFloat_bind {f : Single → Action Unit} (hn : n ≤ room)
    (h : ∀ x, HasEffect room n k (f x)) : HasEffect room (n + 1) k (popFloat >>= f) := by
  rw [popFloat, bind_assoc]
  exact pop_bind fun v => quiet_bind (.asFloat v) hn h

theorem popText_bind {f : String → Action Unit} (hn : n ≤ room)
    (h : ∀ x, HasEffect room n k (f x)) : HasEffect room (n + 1) k (popText >>= f) := by
  rw [popText, bind_assoc]
  refine pop_bind fun v => quiet_bind ?_ hn h
  cases v with
  | string handle => exact .textOf handle
  | int n | float x | pointer address => exact .throw rfl

theorem popMany_bind {count : Nat} {f : List Value → Action Unit}
    (h : ∀ vs, vs.length = count → HasEffect room n k (f vs)) :
    HasEffect room (count + n) k (popMany count >>= f) := by
  induction count generalizing f with
  | zero =>
    rw [Nat.zero_add]
    exact h [] rfl
  | succ count ih =>
    rw [Nat.add_right_comm, popMany, bind_assoc]
    refine pop_bind fun v => ?_
    rw [bind_assoc]
    exact ih fun vs hvs => h (vs ++ [v]) (by simp [hvs])

theorem pushInt (x : Int32) (hr : 0 < room) : HasEffect room 0 1 (pushInt x) := push _ hr

theorem pushFloat (x : Single) (hr : 0 < room) : HasEffect room 0 1 (pushFloat x) := push _ hr

theorem pushBool (b : Bool) (hr : 0 < room) : HasEffect room 0 1 (pushBool b) := push _ hr

theorem pushText (text : String) (hr : 0 < room) : HasEffect room 0 1 (pushText text) :=
  quiet_bind (.intern text) (Nat.zero_le room) fun v => push v hr

end HasEffect

end Machine

open Machine

/-! ## Operations -/

namespace Operation

theorem quiet_storeTexts (id : Int32) (i : Nat) (texts : List String) :
    Quiet (storeTexts id i texts) := by
  induction texts generalizing i with
  | nil => exact .pure ()
  | cons text texts ih =>
    exact .bind (.intern text) fun v => .bind (.setArray _ _ _) fun _ => ih (i + 1)

theorem quiet_storePairs (id : Int32) (pairs : List (String × String)) :
    Quiet (storePairs id pairs) := by
  induction pairs with
  | nil => exact .pure ()
  | cons pair pairs ih =>
    exact .bind (.intern _) fun key => .bind (.intern _) fun v =>
      .bind (.setArray _ _ _) fun _ => ih

theorem quiet_settingsOf (file : String) : Quiet (settingsOf file) := by
  refine .get (fun m stack => rfl) fun m => ?_
  split
  · exact .pure _
  · exact .pure _

theorem quiet_settingText (v : Value) : Quiet (settingText v) := by
  cases v with
  | string handle => exact .textOf handle
  | int n | float x | pointer address => exact .bind (.asInt _) fun _ => .pure _

variable {room : Nat}

theorem hasEffect_pushTexts (texts : List String) (hr : 0 < room) :
    HasEffect room 0 1 (pushTexts texts) :=
  .quiet_bind (.createArray _) (Nat.zero_le room) fun id =>
    .quiet_bind (quiet_storeTexts id 0 texts) (Nat.zero_le room) fun _ => .pushInt id hr

theorem hasEffect_runFloor (hr : 0 < room) : HasEffect room 1 1 runFloor :=
  .pop_bind fun v => .quiet_bind (.asFloat v) (Nat.zero_le room) fun x => .pushInt x.floor hr

theorem hasEffect_runIniSection (hr : 0 < room) : HasEffect room 2 1 runIniSection := by
  refine .popText_bind hr fun heading => .popText_bind (Nat.zero_le room) fun file => ?_
  refine .quiet_bind (.createArray _) (Nat.zero_le room) fun id => ?_
  refine .quiet_bind (quiet_settingsOf file) (Nat.zero_le room) fun c => ?_
  exact .quiet_bind (quiet_storePairs id _) (Nat.zero_le room) fun _ => .pushInt id hr

theorem hasEffect_runIniSections (hr : 0 < room) : HasEffect room 1 1 runIniSections :=
  .popText_bind (Nat.zero_le room) fun file =>
    .quiet_bind (quiet_settingsOf file) (Nat.zero_le room) fun c =>
      hasEffect_pushTexts c.headings hr

theorem hasEffect_runKnown (hr : 0 < room) : HasEffect room 1 1 runKnown :=
  .popText_bind (Nat.zero_le room) fun _ => .pushBool _ hr

theorem hasEffect_runSetIni (hr : 0 < room) : HasEffect room 2 1 runSetIni := by
  refine .pop_bind fun v => .popText_bind (Nat.zero_le room) fun name => ?_
  refine .quiet_bind (quiet_settingText v) (Nat.zero_le room) fun text => ?_
  refine .quiet_bind (.writeSetting name text) (Nat.zero_le room) fun failure => ?_
  cases failure with
  | none => exact .pushInt (-1) hr
  | some e => exact .quiet_bind (.log _) (Nat.zero_le room) fun _ => .pushInt (-1) hr

theorem hasEffect_compareUnder (hr : 0 < room) (page : Option Int32) :
    HasEffect room 2 1 (compareUnder page) :=
  .popText_bind hr fun _ => .popText_bind (Nat.zero_le room) fun _ => .pushBool _ hr

theorem hasEffect_runCompare (hr : 1 < room) {args : Nat} (ha : args = 2 ∨ args = 3) :
    HasEffect room args 1 (runCompare args) := by
  have hr₀ : 0 < room := by omega
  rcases ha with rfl | rfl
  · exact hasEffect_compareUnder hr₀ none
  · rw [runCompare, if_pos rfl, map_eq_pure_bind, bind_assoc]
    exact .popInt_bind hr fun n => hasEffect_compareUnder hr₀ (some n)

theorem hasEffect_findFrom (hr : 0 < room) (start : Int32) :
    HasEffect room 2 1 (findFrom start) := by
  refine .popText_bind hr fun needle => .popText_bind (Nat.zero_le room) fun haystack => ?_
  split
  · exact .quiet_bind (.log _) (Nat.zero_le room) fun _ => .pushInt (-1) hr
  · split
    · exact .pushInt _ hr
    · exact .pushInt (-1) hr

theorem hasEffect_runFind (hr : 1 < room) {args : Nat} (ha : args = 2 ∨ args = 3) :
    HasEffect room args 1 (runFind args) := by
  have hr₀ : 0 < room := by omega
  rcases ha with rfl | rfl
  · exact hasEffect_findFrom hr₀ 0
  · exact .popInt_bind hr fun start => hasEffect_findFrom hr₀ start

theorem hasEffect_runFormat (hr : 0 < room) {args : Nat} (ha : 1 ≤ args) :
    HasEffect room args 1 (runFormat args) := by
  obtain ⟨count, rfl⟩ := Nat.exists_eq_add_of_le' ha
  refine .popMany_bind fun values hv => .popText_bind (Nat.zero_le room) fun template => ?_
  exact .get_bind (fun m stack => rfl) fun m => .pushText _ hr

theorem hasEffect_runToCase (hr : 0 < room) : HasEffect room 2 1 runToCase := by
  refine .popInt_bind hr fun case => .popText_bind (Nat.zero_le room) fun text => ?_
  split
  · exact .pushText _ hr
  · split
    · exact .pushText _ hr
    · exact .quiet_bind (.log _) (Nat.zero_le room) fun _ => .pushText text hr

/-- An operation that accepts a number of arguments takes so many values and leaves one. -/
theorem hasEffect_run (op : Operation) {args : Nat} (ha : op.accepts args) (hr : args < room) :
    HasEffect room args 1 (op.run args) := by
  have hr₀ : 0 < room := by omega
  simp only [accepts, Bool.and_eq_true, decide_eq_true_eq] at ha
  obtain ⟨hmin, hmax⟩ := ha
  cases op <;> simp only [minArgs, maxArgs] at hmin hmax
  case floor =>
    obtain rfl : args = 1 := by omega
    exact hasEffect_runFloor hr₀
  case iniSection =>
    obtain rfl : args = 2 := by omega
    exact hasEffect_runIniSection hr₀
  case iniSections =>
    obtain rfl : args = 1 := by omega
    exact hasEffect_runIniSections hr₀
  case table =>
    obtain rfl : args = 0 := by omega
    exact hasEffect_pushTexts names hr₀
  case known =>
    obtain rfl : args = 1 := by omega
    exact hasEffect_runKnown hr₀
  case setIni =>
    obtain rfl : args = 2 := by omega
    exact hasEffect_runSetIni hr₀
  case compare => exact hasEffect_runCompare (by omega) (by omega)
  case find => exact hasEffect_runFind (by omega) (by omega)
  case format => exact hasEffect_runFormat hr₀ (by omega)
  case toCase =>
    obtain rfl : args = 2 := by omega
    exact hasEffect_runToCase hr₀

end Operation

/-! ## Opcodes -/

namespace Machine

theorem accepts_of_resolve {name : String} {args : Nat} {op : Operation}
    (h : resolve name args = .ok op) : op.accepts args := by
  unfold resolve at h
  split at h
  · cases h
  · split at h
    · rename_i ha
      cases h
      exact ha.2
    · cases h

theorem isCallFault_of_resolve {name : String} {args : Nat} {e : Error}
    (h : resolve name args = .error e) : e.isCallFault := by
  unfold resolve at h
  split at h
  · cases h
    rfl
  · split at h <;> cases h
    rfl

/-- A call with `args` arguments takes them and the name, whatever operation it names. -/
theorem hasEffect_call (args : Nat) : HasEffect (args + 1) (args + 1) 1 (call args) := by
  refine .popMany_bind fun values hv => .popText_bind (Nat.zero_le _) fun name => ?_
  subst hv
  refine .pushMany_bind (Nat.le_succ _) ?_
  cases hop : resolve name values.length with
  | error e =>
    have he : (ofExcept (.error e : Except Error Operation) >>= fun op =>
        runBalanced op name values.length) = throw e := rfl
    rw [he]
    exact .throw (isCallFault_of_resolve hop) (Nat.le_succ _)
  | ok op =>
    have ha := accepts_of_resolve hop
    exact .balanced name (Operation.hasEffect_run op ha (Nat.lt_succ_self _))

variable {room : Nat}

theorem hasEffect_stepFloat (f : Single → Single) (hr : 0 < room) :
    HasEffect room 1 1 (stepFloat f) :=
  .popFloat_bind (Nat.zero_le room) fun x => .pushFloat (f x) hr

theorem hasEffect_stepRound (f : Single → Int32) (hr : 0 < room) :
    HasEffect room 1 1 (stepRound f) :=
  .popFloat_bind (Nat.zero_le room) fun x => .pushInt (f x) hr

theorem hasEffect_stepAbs (hr : 0 < room) : HasEffect room 1 1 stepAbs := by
  refine .pop_bind fun v => ?_
  cases v with
  | int n => exact .pushInt _ hr
  | float x | string handle | pointer address =>
    exact .quiet_bind (.asFloat _) (Nat.zero_le room) fun y => .pushFloat y.abs hr

theorem hasEffect_stepArctan (hr : 0 < room) : HasEffect room 2 1 stepArctan :=
  .popFloat_bind hr fun x => .popFloat_bind (Nat.zero_le room) fun y => .pushFloat (y.atan2 x) hr

theorem hasEffect_stepPower (hr : 0 < room) : HasEffect room 2 1 stepPower := by
  refine .pop_bind fun exponent => .pop_bind fun base => ?_
  refine .quiet_bind (.asFloat base) (Nat.zero_le room) fun b => ?_
  refine .quiet_bind (.asFloat exponent) (Nat.zero_le room) fun e => ?_
  split
  · exact .pushInt _ hr
  · exact .pushFloat _ hr

theorem hasEffect_stepDiv (hr : 0 < room) : HasEffect room 2 1 stepDiv := by
  refine .pop_bind fun divisor => .pop_bind fun dividend => ?_
  refine .quiet_bind (.asFloat divisor) (Nat.zero_le room) fun d => ?_
  split
  · exact .quiet_bind (.log _) (Nat.zero_le room) fun _ => .pushInt 0 hr
  · split
    · exact .quiet_bind (.asFloat dividend) (Nat.zero_le room) fun x => .pushFloat (x.div d) hr
    · exact .quiet_bind (.asInt dividend) (Nat.zero_le room) fun a =>
        .quiet_bind (.asInt divisor) (Nat.zero_le room) fun b => .pushInt (divUnsigned a b) hr

theorem hasEffect_stepGetIniSetting (hr : 0 < room) : HasEffect room 1 1 stepGetIniSetting := by
  refine .popText_bind (Nat.zero_le room) fun name => .get_bind (fun m stack => rfl) fun m => ?_
  split
  · exact .pushInt _ hr
  · exact .pushInt (-1) hr

theorem hasEffect_stepGetIniString (hr : 0 < room) : HasEffect room 1 1 stepGetIniString := by
  refine .popText_bind (Nat.zero_le room) fun name => .get_bind (fun m stack => rfl) fun m => ?_
  split
  · exact .pushText _ hr
  · exact .pushInt (-1) hr

theorem hasEffect_stepSetArray : HasEffect room 3 0 stepSetArray :=
  .pop_bind fun v => .pop_bind fun key => .popInt_bind (Nat.zero_le room) fun id =>
    .quiet (.setArray id key v)

theorem hasEffect_stepGetArray (hr : 0 < room) : HasEffect room 2 1 stepGetArray := by
  refine .pop_bind fun key => .pop_bind fun target => ?_
  split
  · exact .quiet_bind (.textOf _) (Nat.zero_le room) fun text => .pushText _ hr
  · exact .quiet_bind (.asInt target) (Nat.zero_le room) fun _ =>
      .get_bind (fun _ _ => rfl) fun _ => .push _ hr

theorem hasEffect_stepLenArray (hr : 0 < room) : HasEffect room 1 1 stepLenArray :=
  .popInt_bind (Nat.zero_le room) fun _ => .get_bind (fun _ _ => rfl) fun _ => .pushInt _ hr

theorem hasEffect_stepTempArray (hr : 0 < room) : HasEffect room 2 1 stepTempArray :=
  .popInt_bind hr fun _ => .popInt_bind (Nat.zero_le room) fun length =>
    .quiet_bind (.createArray length) (Nat.zero_le room) fun id => .pushInt id hr

theorem hasEffect_stepArrayKey (hr : 0 < room) : HasEffect room 2 1 stepArrayKey :=
  .popInt_bind hr fun _ => .popInt_bind (Nat.zero_le room) fun _ =>
    .get_bind (fun _ _ => rfl) fun _ => .push _ hr

/-- An action that computes an integer from a text. -/
theorem hasEffect_ofText (f : String → Int32) (hr : 0 < room) :
    HasEffect room 1 1 (popText >>= fun text => pushInt (f text)) :=
  .popText_bind (Nat.zero_le room) fun text => .pushInt (f text) hr

theorem hasEffect_stepAtof (hr : 0 < room) : HasEffect room 1 1 stepAtof :=
  .popText_bind (Nat.zero_le room) fun _ => .pushFloat _ hr

theorem hasEffect_stepSubstr (hr : 1 < room) : HasEffect room 3 1 stepSubstr :=
  .popInt_bind hr fun _ => .popInt_bind (by omega) fun _ =>
    .popText_bind (Nat.zero_le room) fun _ => .pushText _ (by omega)

theorem hasEffect_stepSprintf (hr : 0 < room) : HasEffect room 2 1 stepSprintf :=
  .pop_bind fun _ => .popText_bind (Nat.zero_le room) fun _ =>
    .get_bind (fun _ _ => rfl) fun _ => .pushText _ hr

theorem hasEffect_stepTypeOf (hr : 0 < room) : HasEffect room 1 1 stepTypeOf :=
  .pop_bind fun v => .pushInt v.typeCode hr

end Machine

/-! ## What each opcode takes and leaves -/

/-- The number of values that an opcode takes. -/
def Opcode.pops : Opcode → Nat
  | versionMajor | versionMinor | versionBuild => 0
  | getIniSetting | getIniString | sqrt | abs | sin | cos | tan | log | exponent | ceil | round
  | lenArray | atoi | atof | strlen | charcode | typeOf => 1
  | arctan | power | div | getArray | tempArray | sprintf | arrayKey => 2
  | substr | setArray => 3
  | call args => args + 1

/-- The number of values that an opcode leaves in their place. -/
def Opcode.pushes : Opcode → Nat
  | setArray => 0
  | _ => 1

theorem Machine.hasEffect_step (op : Opcode) :
    HasEffect (max op.pops op.pushes) op.pops op.pushes (step op) := by
  cases op with
  | getIniSetting => exact hasEffect_stepGetIniSetting (by decide)
  | getIniString => exact hasEffect_stepGetIniString (by decide)
  | sqrt | sin | cos | tan | log | exponent => exact hasEffect_stepFloat _ (by decide)
  | abs => exact hasEffect_stepAbs (by decide)
  | arctan => exact hasEffect_stepArctan (by decide)
  | versionMajor | versionMinor | versionBuild => exact .pushInt _ (by decide)
  | setArray => exact hasEffect_stepSetArray
  | getArray => exact hasEffect_stepGetArray (by decide)
  | lenArray => exact hasEffect_stepLenArray (by decide)
  | tempArray => exact hasEffect_stepTempArray (by decide)
  | atoi | strlen | charcode => exact hasEffect_ofText _ (by decide)
  | atof => exact hasEffect_stepAtof (by decide)
  | substr => exact hasEffect_stepSubstr (by decide)
  | sprintf => exact hasEffect_stepSprintf (by decide)
  | typeOf => exact hasEffect_stepTypeOf (by decide)
  | arrayKey => exact hasEffect_stepArrayKey (by decide)
  | power => exact hasEffect_stepPower (by decide)
  | ceil | round => exact hasEffect_stepRound _ (by decide)
  | div => exact hasEffect_stepDiv (by decide)
  | call args =>
    have h : max (args.val + 1) 1 = args.val + 1 := by omega
    simp only [Opcode.pops, Opcode.pushes, h]
    exact hasEffect_call args

end StackScript
