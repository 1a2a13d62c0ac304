import StackScript.Machine.Step
import StackScript.Proofs.ArrayStore

/-!
# Handles that name texts

A string value is a handle, and nothing but the table of texts gives it a meaning. The table grows
and never changes (`Grows`), so that a handle goes on naming what it named.

* `AllKnown`: every handle on the stack and in the arrays names a text.
* `Keeps vs a ws`: from a machine with this property, and with the values `vs` in hand, the action
  `a` leads to one with this property again, done or failed; a result `x` comes with the values
  `ws x` in hand, and no failure is that of a handle without a text.
* One rule for each way to put actions together, and one for each action on the machine; from them
  `keeps_step`, `keeps_execute` and `keeps_callNamed` follow.

All this holds as long as there are handles for all texts. An action cannot know how many texts are
still to come, so `Holds` has the number of texts as a condition.
-/

namespace StackScript

open Text Numeral

/-- Whether an error is that of a handle without a text. -/
def Error.isInvalidHandle : Error → Bool
  | invalidHandle _ => true
  | _ => false

namespace Machine

variable {m m' m₁ m₂ : Machine}

/-! ## Known values -/

/-- The value is no text, or its handle names one. -/
def Knows (m : Machine) : Value → Prop
  | .string handle => ∃ text, m.text? handle = some text
  | _ => True

theorem knows_of_not_isString {v : Value} (h : v.isString = false) : m.Knows v := by
  cases v with
  | string handle => cases h
  | int n | float x | pointer address => trivial

theorem knows_of_imp {vs : List Value} (h : ∀ v ∈ vs, m.Knows v) {v : Value}
    (hv : v.isString = true → v ∈ vs) : m.Knows v := by
  cases hi : v.isString with
  | true => exact h v (hv hi)
  | false => exact knows_of_not_isString hi

/-- The texts of one machine are the first texts of another. -/
def Grows (m m' : Machine) : Prop := m.strings.toList <+: m'.strings.toList

theorem Grows.refl (m : Machine) : Grows m m := List.prefix_refl _

theorem Grows.trans (h : Grows m m₁) (h' : Grows m₁ m₂) : Grows m m₂ := List.IsPrefix.trans h h'

theorem Grows.size_le (h : Grows m m') : m.strings.size ≤ m'.strings.size := by
  simpa using h.length_le

/-- A handle goes on naming the text that it named. -/
theorem Grows.text? (h : Grows m m') {handle : UInt32} {text : String}
    (ht : m.text? handle = some text) : m'.text? handle = some text := by
  obtain ⟨rest, hr⟩ := h
  unfold Machine.text? at ht ⊢
  rw [← Array.getElem?_toList] at ht ⊢
  obtain ⟨hl, -⟩ := List.getElem?_eq_some_iff.mp ht
  rw [← hr, List.getElem?_append_left hl, ht]

theorem Grows.knows (h : Grows m m') {v : Value} (hv : m.Knows v) : m'.Knows v := by
  cases v with
  | string handle =>
    obtain ⟨text, ht⟩ := hv
    exact ⟨text, h.text? ht⟩
  | int n | float x | pointer address => trivial

/-- Every handle on the stack and in the arrays names a text. -/
structure AllKnown (m : Machine) : Prop where
  stack : ∀ v ∈ m.stack, m.Knows v
  arrays : m.arrays.All m.Knows

theorem AllKnown.grow (h : m.AllKnown) (hg : Grows m m') (hs : m'.stack = m.stack)
    (ha : m'.arrays = m.arrays) : m'.AllKnown where
  stack v hv := hg.knows (h.stack v (hs ▸ hv))
  arrays := ha ▸ h.arrays.mono fun _ hv => hg.knows hv

theorem AllKnown.getArray (h : m.AllKnown) (id : Int32) (key : Value) :
    m.Knows (m.getArray id key) := by
  unfold Machine.getArray
  cases hv : (m.arrays.get? id).bind (·.get? key) with
  | none => trivial
  | some v =>
    obtain ⟨a, ha, hv⟩ := Option.bind_eq_some_iff.mp hv
    exact (h.arrays.of_get? ha).of_get? (fun _ => trivial) hv

theorem AllKnown.arrayKey (h : m.AllKnown) (id position : Int32) :
    m.Knows (m.arrayKey id position) := by
  unfold Machine.arrayKey
  cases hv : (m.arrays.get? id).bind (·.keyAt? position) with
  | none => trivial
  | some v =>
    obtain ⟨a, ha, hv⟩ := Option.bind_eq_some_iff.mp hv
    exact (h.arrays.of_get? ha).of_keyAt? (fun _ => trivial) hv

/-! ## Actions that keep values known -/

/-- If there are handles for all texts, every value of the machine is known, and so are those in
hand. -/
def Holds (m : Machine) (vs : List Value) : Prop :=
  m.strings.size < UInt32.size → m.AllKnown ∧ ∀ v ∈ vs, m.Knows v

theorem Holds.drop {vs : List Value} (h : m.Holds vs) : m.Holds [] :=
  fun hs => ⟨(h hs).1, by simp⟩

/-- What may come of an action that began in `m`. -/
inductive Safe (m : Machine) {α : Type} (ws : α → List Value) :
    EStateM.Result Error Machine α → Prop
  | ok {x : α} {m' : Machine} (hg : Grows m m') (hh : m'.Holds (ws x)) : Safe m ws (.ok x m')
  | error {e : Error} {m' : Machine} (hg : Grows m m') (hh : m'.Holds [])
      (he : m'.strings.size < UInt32.size → e.isInvalidHandle = false) : Safe m ws (.error e m')

theorem Safe.grow {α : Type} {ws : α → List Value} {r : EStateM.Result Error Machine α}
    (h : Safe m₁ ws r) (hg : Grows m m₁) : Safe m ws r := by
  cases h with
  | ok hg' hh => exact .ok (hg.trans hg') hh
  | error hg' hh he => exact .error (hg.trans hg') hh he

/-- An action keeps all values known, needs no others but those in hand for it, and gives `ws`. -/
def Keeps {α : Type} (vs : List Value) (a : Action α) (ws : α → List Value := fun _ => []) :
    Prop :=
  ∀ m : Machine, m.Holds vs → Safe m ws (a m)

namespace Keeps

variable {α β : Type} {vs us : List Value} {ws : α → List Value} {xs : β → List Value}

theorem pure (x : α) (h : ∀ v ∈ ws x, v.isString = true → v ∈ vs) : Keeps vs (pure x) ws :=
  fun m hm => .ok (.refl m) fun hs => ⟨(hm hs).1, fun v hv => knows_of_imp (hm hs).2 (h v hv)⟩

theorem throw {e : Error} (he : e.isInvalidHandle = false) : Keeps vs (throw e : Action α) ws :=
  fun m hm => .error (.refl m) hm.drop fun _ => he

theorem bind {a : Action α} {f : α → Action β} (ha : Keeps vs a ws)
    (hf : ∀ x, Keeps (ws x ++ vs) (f x) xs) : Keeps vs (a >>= f) xs := by
  intro m hm
  have h := ha m hm
  simp only [Bind.bind, EStateM.bind]
  cases hr : a m with
  | ok x m₁ =>
    rw [hr] at h
    cases h with
    | ok hg hh =>
      -- What was in hand before is still known, since the table has only grown.
      refine (hf x m₁ fun hs => ⟨(hh hs).1, fun v hv => ?_⟩).grow hg
      rcases List.mem_append.mp hv with hv | hv
      · exact (hh hs).2 v hv
      · exact hg.knows ((hm (Nat.lt_of_le_of_lt hg.size_le hs)).2 v hv)
  | error e m₁ =>
    rw [hr] at h
    cases h with
    | error hg hh he => exact .error hg hh he

/-- What is taken from the machine is in hand if it is known there. -/
theorem get_bind (taken : Machine → List Value)
    (ht : ∀ m : Machine, m.AllKnown → ∀ v ∈ taken m, m.Knows v) {f : Machine → Action β}
    (hf : ∀ m, Keeps (taken m ++ vs) (f m) xs) : Keeps vs (get >>= f) xs := by
  intro m hm
  refine hf m m fun hs => ⟨(hm hs).1, fun v hv => ?_⟩
  rcases List.mem_append.mp hv with hv | hv
  · exact ht m (hm hs).1 v hv
  · exact (hm hs).2 v hv

theorem get_bind_of_forall {f : Machine → Action β} (hf : ∀ m, Keeps vs (f m) xs) :
    Keeps vs (get >>= f) xs :=
  get_bind (fun _ => []) (by simp) hf

theorem except {x : Except Error α} (h : ∀ e, x = .error e → e.isInvalidHandle = false) :
    Keeps vs (ofExcept x : Action α) := by
  cases x with
  | ok x => exact pure x (by simp)
  | error e => exact throw (h e rfl)

theorem asInt (v : Value) : Keeps vs (ofExcept v.asInt : Action Int32) :=
  except fun e h => by cases v <;> cases h <;> rfl

theorem asFloat (v : Value) : Keeps vs (ofExcept v.asFloat : Action Single) :=
  except fun e h => by cases v <;> cases h <;> rfl

/-! ### The stack -/

theorem pop : Keeps vs pop fun v => [v] := by
  intro m hm
  cases h : m.stack with
  | nil =>
    rw [pop_nil h]
    exact .error (.refl m) hm.drop fun _ => rfl
  | cons v rest =>
    rw [pop_cons h]
    refine .ok (Grows.refl m) fun hs => ?_
    have hk := (hm hs).1
    refine ⟨⟨fun w hw => hk.stack w (h ▸ List.mem_cons_of_mem v hw), hk.arrays⟩, ?_⟩
    rintro w hw
    obtain rfl := List.mem_singleton.mp hw
    exact hk.stack w (h ▸ List.mem_cons_self)

theorem push {v : Value} (hv : v.isString = true → v ∈ vs) : Keeps vs (push v) := by
  intro m hm
  unfold Machine.push
  split
  · refine .ok (Grows.refl m) fun hs => ⟨⟨?_, (hm hs).1.arrays⟩, by simp⟩
    exact List.forall_mem_cons.mpr ⟨knows_of_imp (hm hs).2 hv, (hm hs).1.stack⟩
  · exact .error (.refl m) hm.drop fun _ => rfl

theorem pushInt (n : Int32) : Keeps vs (pushInt n) := push (by simp [Value.isString])

theorem pushFloat (x : Single) : Keeps vs (pushFloat x) := push (by simp [Value.isString])

theorem pushBool (b : Bool) : Keeps vs (pushBool b) := pushInt _

theorem popInt : Keeps vs popInt := bind pop fun v => asInt v

theorem popFloat : Keeps vs popFloat := bind pop fun v => asFloat v

theorem popMany (n : Nat) : Keeps vs (popMany n) fun us => us := by
  induction n generalizing vs with
  | zero => exact pure [] (by simp)
  | succ n ih =>
    refine bind pop fun v => bind ih fun us => pure _ fun w hw _ => ?_
    rcases List.mem_append.mp hw with hw | hw
    · exact List.mem_append_left _ hw
    · exact List.mem_append_right _ (List.mem_append_left _ hw)

theorem pushMany (hu : ∀ v ∈ us, v ∈ vs) : Keeps vs (pushMany us) := by
  induction us with
  | nil => exact pure () (by simp)
  | cons v us ih =>
    obtain ⟨hv, hus⟩ := List.forall_mem_cons.mp hu
    exact bind (push fun _ => hv) fun _ => ih hus

/-! ### The table of texts -/

theorem textOf {handle : UInt32} (h : .string handle ∈ vs) : Keeps vs (textOf handle) := by
  intro m hm
  unfold Machine.textOf
  cases ht : m.text? handle with
  | some text => exact .ok (.refl m) hm.drop
  | none =>
    refine .error (.refl m) hm.drop fun hs => ?_
    obtain ⟨text, ht'⟩ := (hm hs).2 _ h
    rw [ht] at ht'
    cases ht'

theorem intern (text : String) : Keeps vs (intern text) fun v => [v] := by
  intro m hm
  cases hr : Machine.intern text m with
  | error e m' =>
    unfold Machine.intern at hr
    split at hr <;> cases hr
  | ok v m' =>
    have hg : Grows m m' ∧ m'.stack = m.stack ∧ m'.arrays = m.arrays := by
      unfold Machine.intern at hr
      split at hr <;> cases hr
      · exact ⟨.refl m, rfl, rfl⟩
      · exact ⟨by simp [Grows], rfl, rfl⟩
    refine .ok hg.1 fun hs => ?_
    have hb := Nat.lt_of_le_of_lt hg.1.size_le hs
    refine ⟨(hm hb).1.grow hg.1 hg.2.1 hg.2.2, fun w hw => ?_⟩
    obtain rfl := List.mem_singleton.mp hw
    obtain ⟨handle, rfl, ht⟩ := text?_of_intern hb hr
    exact ⟨text, ht⟩

theorem pushText (text : String) : Keeps vs (pushText text) :=
  bind (intern text) fun _ => push fun _ => List.mem_cons_self

theorem popText : Keeps vs popText := by
  refine bind pop fun v => ?_
  cases v with
  | string handle => exact textOf List.mem_cons_self
  | int n | float x | pointer address => exact throw rfl

/-! ### Arrays, settings and the log -/

theorem createArray (length : Int32) : Keeps vs (createArray length) := by
  intro m hm
  refine .ok (Grows.refl m) fun hs => ⟨⟨(hm hs).1.stack, ?_⟩, by simp⟩
  exact (hm hs).1.arrays.create (fun _ => trivial) length

theorem setArray (id : Int32) {key value : Value} (hk : key.isString = true → key ∈ vs)
    (hv : value.isString = true → value ∈ vs) : Keeps vs (setArray id key value) := by
  intro m hm
  refine .ok (Grows.refl m) fun hs => ⟨⟨(hm hs).1.stack, ?_⟩, by simp⟩
  have hk' := knows_of_imp (hm hs).2 hk
  have hv' := knows_of_imp (hm hs).2 hv
  exact (hm hs).1.arrays.set (fun _ => trivial) id hk' hv'

theorem writeSetting (name value : String) : Keeps vs (Operation.writeSetting name value) := by
  intro m hm
  unfold Operation.writeSetting
  split <;> exact .ok (Grows.refl m) fun hs => ⟨⟨(hm hs).1.stack, (hm hs).1.arrays⟩, by simp⟩

theorem log (line : String) : Keeps vs (log line) :=
  fun m hm => .ok (Grows.refl m) fun hs => ⟨⟨(hm hs).1.stack, (hm hs).1.arrays⟩, by simp⟩

end Keeps

end Machine

open Machine

variable {vs : List Value}

/-! ## Operations -/

namespace Operation

theorem keeps_storeTexts (id : Int32) (i : Nat) (texts : List String) :
    Keeps vs (storeTexts id i texts) := by
  induction texts generalizing i vs with
  | nil => exact .pure () (by simp)
  | cons text texts ih =>
    refine .bind (.intern text) fun v => .bind (.setArray id ?_ ?_) fun _ => ih (i + 1)
    · simp [Value.isString]
    · exact fun _ => List.mem_cons_self

theorem keeps_storePairs (id : Int32) (pairs : List (String × String)) :
    Keeps vs (storePairs id pairs) := by
  induction pairs generalizing vs with
  | nil => exact .pure () (by simp)
  | cons pair pairs ih =>
    refine .bind (.intern _) fun key => .bind (.intern _) fun v => ?_
    refine .bind (.setArray id ?_ ?_) fun _ => ih
    · exact fun _ => by simp
    · exact fun _ => by simp

theorem keeps_pushTexts (texts : List String) : Keeps vs (pushTexts texts) :=
  .bind (.createArray _) fun id => .bind (keeps_storeTexts id 0 texts) fun _ => .pushInt id

theorem keeps_settingsOf (file : String) : Keeps vs (settingsOf file) := by
  refine .get_bind_of_forall fun m => ?_
  split
  · exact .pure _ (by simp)
  · exact .pure _ (by simp)

theorem keeps_runFloor : Keeps vs runFloor :=
  .bind .pop fun v => .bind (.asFloat v) fun x => .pushInt x.floor

theorem keeps_runIniSection : Keeps vs runIniSection := by
  refine .bind .popText fun heading => .bind .popText fun file => ?_
  refine .bind (.createArray _) fun id => .bind (keeps_settingsOf file) fun c => ?_
  exact .bind (keeps_storePairs id _) fun _ => .pushInt id

theorem keeps_runIniSections : Keeps vs runIniSections :=
  .bind .popText fun file => .bind (keeps_settingsOf file) fun c => keeps_pushTexts c.headings

theorem keeps_runKnown : Keeps vs runKnown := .bind .popText fun _ => .pushBool _

theorem keeps_settingText {v : Value} (h : v ∈ vs) : Keeps vs (settingText v) := by
  cases v with
  | string handle => exact .textOf h
  | int n | float x | pointer address => exact .bind (.asInt _) fun _ => .pure _ (by simp)

theorem keeps_runSetIni : Keeps vs runSetIni := by
  refine .bind .pop fun v => .bind .popText fun name => ?_
  refine .bind (keeps_settingText (by simp)) fun text => ?_
  refine .bind (.writeSetting name text) fun failure => ?_
  cases failure with
  | none => exact .pushInt (-1)
  | some e => exact .bind (.log _) fun _ => .pushInt (-1)

theorem keeps_compareUnder (page : Option Int32) : Keeps vs (compareUnder page) :=
  .bind .popText fun _ => .bind .popText fun _ => .pushBool _

theorem keeps_runCompare (args : Nat) : Keeps vs (runCompare args) := by
  unfold runCompare
  split
  · rw [map_eq_pure_bind, bind_assoc]
    exact .bind .popInt fun n => keeps_compareUnder (some n)
  · exact keeps_compareUnder none

theorem keeps_findFrom (start : Int32) : Keeps vs (findFrom start) := by
  refine .bind .popText fun needle => .bind .popText fun haystack => ?_
  split
  · exact .bind (.log _) fun _ => .pushInt (-1)
  · split
    · exact .pushInt _
    · exact .pushInt (-1)

theorem keeps_runFind (args : Nat) : Keeps vs (runFind args) := by
  unfold runFind
  split
  · exact .bind .popInt fun start => keeps_findFrom start
  · exact keeps_findFrom 0

theorem keeps_runFormat (args : Nat) : Keeps vs (runFormat args) :=
  .bind (.popMany _) fun _ => .bind .popText fun _ =>
    .get_bind_of_forall fun _ => .pushText _

theorem keeps_runToCase : Keeps vs runToCase := by
  refine .bind .popInt fun case => .bind .popText fun text => ?_
  split
  · exact .pushText _
  · split
    · exact .pushText _
    · exact .bind (.log _) fun _ => .pushText text

theorem keeps_run (op : Operation) (args : Nat) : Keeps vs (op.run args) := by
  cases op with
  | floor => exact keeps_runFloor
  | iniSection => exact keeps_runIniSection
  | iniSections => exact keeps_runIniSections
  | table => exact keeps_pushTexts names
  | known => exact keeps_runKnown
  | setIni => exact keeps_runSetIni
  | compare => exact keeps_runCompare args
  | find => exact keeps_runFind args
  | format => exact keeps_runFormat args
  | toCase => exact keeps_runToCase

end Operation

/-! ## Opcodes -/

namespace Machine

theorem isInvalidHandle_of_resolve {name : String} {args : Nat} {e : Error}
    (h : resolve name args = .error e) : e.isInvalidHandle = false := by
  unfold resolve at h
  split at h
  · cases h
    rfl
  · split at h <;> cases h
    rfl

theorem keeps_runBalanced (op : Operation) (name : String) (args : Nat) :
    Keeps vs (runBalanced op name args) := by
  refine .get_bind_of_forall fun before => .bind (op.keeps_run args) fun _ => ?_
  refine .get_bind_of_forall fun found => ?_
  dsimp only
  split
  · exact .throw rfl
  · exact .pure () (by simp)

theorem keeps_call (args : Nat) : Keeps vs (call args) := by
  refine .bind (.popMany args) fun values => .bind .popText fun name => ?_
  refine .bind (.pushMany fun v hv => by simp [hv]) fun _ => ?_
  refine .bind (.except fun e h => isInvalidHandle_of_resolve h) fun op => ?_
  exact keeps_runBalanced op name args

theorem keeps_stepFloat (f : Single → Single) : Keeps vs (stepFloat f) :=
  .bind .popFloat fun x => .pushFloat (f x)

theorem keeps_stepRound (f : Single → Int32) : Keeps vs (stepRound f) :=
  .bind .popFloat fun x => .pushInt (f x)

theorem keeps_stepAbs : Keeps vs stepAbs := by
  refine .bind .pop fun v => ?_
  cases v with
  | int n => exact .pushInt _
  | float x | string handle | pointer address => exact .bind (.asFloat _) fun y => .pushFloat y.abs

theorem keeps_stepArctan : Keeps vs stepArctan :=
  .bind .popFloat fun x => .bind .popFloat fun y => .pushFloat (y.atan2 x)

theorem keeps_stepPower : Keeps vs stepPower := by
  refine .bind .pop fun exponent => .bind .pop fun base => ?_
  refine .bind (.asFloat base) fun b => .bind (.asFloat exponent) fun e => ?_
  split
  · exact .pushInt _
  · exact .pushFloat _

theorem keeps_stepDiv : Keeps vs stepDiv := by
  refine .bind .pop fun divisor => .bind .pop fun dividend => ?_
  refine .bind (.asFloat divisor) fun d => ?_
  split
  · exact .bind (.log _) fun _ => .pushInt 0
  · split
    · exact .bind (.asFloat dividend) fun x => .pushFloat (x.div d)
    · exact .bind (.asInt dividend) fun a => .bind (.asInt divisor) fun b =>
        .pushInt (divUnsigned a b)

theorem keeps_stepGetIniSetting : Keeps vs stepGetIniSetting := by
  refine .bind .popText fun name => .get_bind_of_forall fun m => ?_
  split
  · exact .pushInt _
  · exact .pushInt (-1)

theorem keeps_stepGetIniString : Keeps vs stepGetIniString := by
  refine .bind .popText fun name => .get_bind_of_forall fun m => ?_
  split
  · exact .pushText _
  · exact .pushInt (-1)

theorem keeps_stepSetArray : Keeps vs stepSetArray :=
  .bind .pop fun v => .bind .pop fun key => .bind .popInt fun id =>
    .setArray id (fun _ => by simp) fun _ => by simp

theorem keeps_stepGetArray : Keeps vs stepGetArray := by
  refine .bind .pop fun key => .bind .pop fun target => ?_
  split
  · exact .bind (.textOf (by simp)) fun text => .pushText _
  · refine .bind (.asInt target) fun id => ?_
    exact .get_bind (fun m => [m.getArray id key]) (fun m hm => by simpa using hm.getArray id key)
      fun m => .push fun _ => List.mem_cons_self

theorem keeps_stepLenArray : Keeps vs stepLenArray :=
  .bind .popInt fun _ => .get_bind_of_forall fun _ => .pushInt _

theorem keeps_stepTempArray : Keeps vs stepTempArray :=
  .bind .popInt fun _ => .bind .popInt fun length =>
    .bind (.createArray length) fun id => .pushInt id

theorem keeps_stepArrayKey : Keeps vs stepArrayKey := by
  refine .bind .popInt fun position => .bind .popInt fun id => ?_
  exact .get_bind (fun m => [m.arrayKey id position])
    (fun m hm => by simpa using hm.arrayKey id position) fun m => .push fun _ => List.mem_cons_self

/-- An action that computes an integer from a text. -/
theorem keeps_ofText (f : String → Int32) : Keeps vs (popText >>= fun text => pushInt (f text)) :=
  .bind .popText fun text => .pushInt (f text)

theorem keeps_stepAtof : Keeps vs stepAtof := .bind .popText fun _ => .pushFloat _

theorem keeps_stepSubstr : Keeps vs stepSubstr :=
  .bind .popInt fun _ => .bind .popInt fun _ => .bind .popText fun _ => .pushText _

theorem keeps_stepSprintf : Keeps vs stepSprintf :=
  .bind .pop fun _ => .bind .popText fun _ => .get_bind_of_forall fun _ => .pushText _

theorem keeps_stepTypeOf : Keeps vs stepTypeOf := .bind .pop fun v => .pushInt v.typeCode

/-- Every opcode keeps all values known. -/
theorem keeps_step (op : Opcode) : Keeps vs (step op) := by
  cases op with
  | getIniSetting => exact keeps_stepGetIniSetting
  | getIniString => exact keeps_stepGetIniString
  | sqrt | sin | cos | tan | log | exponent => exact keeps_stepFloat _
  | abs => exact keeps_stepAbs
  | arctan => exact keeps_stepArctan
  | versionMajor | versionMinor | versionBuild => exact .pushInt _
  | setArray => exact keeps_stepSetArray
  | getArray => exact keeps_stepGetArray
  | lenArray => exact keeps_stepLenArray
  | tempArray => exact keeps_stepTempArray
  | atoi | strlen | charcode => exact keeps_ofText _
  | atof => exact keeps_stepAtof
  | substr => exact keeps_stepSubstr
  | sprintf => exact keeps_stepSprintf
  | typeOf => exact keeps_stepTypeOf
  | arrayKey => exact keeps_stepArrayKey
  | power => exact keeps_stepPower
  | ceil | round => exact keeps_stepRound _
  | div => exact keeps_stepDiv
  | call args => exact keeps_call args

theorem keeps_stepCode (code : UInt16) : Keeps vs (stepCode code) := by
  unfold stepCode
  split
  · exact keeps_step _
  · exact .throw rfl

/-- That the program stops changes no value. -/
theorem keeps_execute (code : UInt16) : Keeps vs (execute code) := by
  intro m hm
  unfold execute
  split
  · exact .error (.refl m) hm.drop fun _ => rfl
  · have h := keeps_stepCode code m hm
    cases hr : stepCode code m with
    | ok x m' =>
      rw [hr] at h
      exact h
    | error e m' =>
      rw [hr] at h
      cases h with
      | error hg hh he =>
        dsimp only
        split
        · exact .error hg (fun hs => ⟨⟨(hh hs).1.stack, (hh hs).1.arrays⟩, by simp⟩) he
        · exact .error hg hh he

/-- A call by name keeps all values known if its arguments are. -/
theorem keeps_callNamed (name : String) {args : List Value} (ha : ∀ v ∈ args, v ∈ vs) :
    Keeps vs (callNamed name args) := by
  unfold callNamed
  split
  · exact .throw rfl
  · exact .bind (.pushText name) fun _ => .bind (.pushMany ha) fun _ => keeps_execute _

end Machine

end StackScript
