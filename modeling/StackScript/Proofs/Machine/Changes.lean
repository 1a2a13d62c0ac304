import StackScript.Proofs.Host.Sections
import StackScript.Proofs.Setting.Failure

/-!
# What a command changes for good

Most commands change nothing but the stack, the table of texts and the log. A few add an array, one
sets an element of an array, and one named operation writes a file.

* `Makes P a`: the action `a` makes at most one change of the kind `P` to the arrays and the files,
  whatever comes of it, and does not fail as a call that is refused.
* One rule for each way to put actions together, and one for each action on the machine; from them
  `makes_runBalanced` and `makes_step` follow for all operations and opcodes (`Operation.change`,
  `Opcode.change`).
-/

namespace StackScript

/-- Whether an error refuses a call: there is no such operation, or it takes another number of
arguments. -/
def Error.isRefusal : Error → Bool
  | unknownOperation _ | arityMismatch .. => true
  | _ => false

namespace Machine

/-- What stays when a program is done: its arrays and the files. -/
def holdings (m : Machine) : ArrayStore × Disk := (m.arrays, m.disk)

/-- A kind of change of arrays and files. -/
def Change : Type := ArrayStore × Disk → ArrayStore × Disk → Prop

namespace Change

/-- No change at all. -/
def none : Change := fun _ _ => False

/-- One file is written. -/
def write : Change := fun k k' => k'.1 = k.1 ∧ ∃ l bytes, k'.2 = k.2.put l bytes

/-- One array is added, as long as there are numbers for arrays. -/
def add : Change := fun k k' =>
  k'.2 = k.2 ∧ (k.1.count < UInt32.size → ∃ a, k'.1.arrays = k.1.arrays.push a)

/-- Elements of the array with a number are set, which is the last array if there is one. -/
def fill (id : Int32) : Change := fun k k' =>
  k'.2 = k.2 ∧ (ArrayStore.slot? id = .none → k'.1 = k.1) ∧
    ∀ (old : Array ValueArray) a, ArrayStore.slot? id = some old.size → k.1.arrays = old.push a →
      ∃ b, k'.1.arrays = old.push b

end Change

/-- At most one change of a kind lies between two machines. -/
def Within (P : Change) (m m' : Machine) : Prop :=
  m'.holdings = m.holdings ∨ P m.holdings m'.holdings

/-- What may come of an action that makes at most one change of a kind. -/
inductive Ends (P : Change) (m : Machine) {α : Type} : EStateM.Result Error Machine α → Prop
  | ok {x : α} {m' : Machine} (h : Within P m m') : Ends P m (.ok x m')
  | error {e : Error} {m' : Machine} (h : Within P m m') (he : e.isRefusal = false) :
      Ends P m (.error e m')

theorem Ends.within {P : Change} {m : Machine} {α : Type} {r : EStateM.Result Error Machine α}
    (h : Ends P m r) : Within P m (after r) := by
  cases h with
  | ok h => exact h
  | error h he => exact h

/-- The action makes at most one change of a kind, and is not refused as a call. -/
def Makes (P : Change) {α : Type} (a : Action α) : Prop := ∀ m, Ends P m (a m)

namespace Makes

variable {P Q R : Change} {α β : Type}

/-- Actions make the changes of both, one after the other. -/
theorem bind_of {a : Action α} {f : α → Action β} (ha : Makes P a) (hf : ∀ x, Makes Q (f x))
    (h : ∀ m m₁ m₂, Within P m m₁ → m₂.holdings = m₁.holdings ∨ Q m₁.holdings m₂.holdings →
      Within R m m₂) : Makes R (a >>= f) := by
  intro m
  have hm := ha m
  simp only [Bind.bind, EStateM.bind]
  cases hr : a m with
  | ok x m₁ =>
    rw [hr] at hm
    cases hm with
    | ok hP =>
      have hx := hf x m₁
      dsimp only
      cases hr' : f x m₁ with
      | ok y m₂ =>
        rw [hr'] at hx
        cases hx with
        | ok hQ => exact .ok (h _ _ _ hP hQ)
      | error e m₂ =>
        rw [hr'] at hx
        cases hx with
        | error hQ he => exact .error (h _ _ _ hP hQ) he
  | error e m₁ =>
    rw [hr] at hm
    cases hm with
    | error hP he => exact .error (h _ _ _ hP (.inl rfl)) he

/-- What changes nothing may come first. -/
theorem bind {a : Action α} {f : α → Action β} (ha : Makes .none a) (hf : ∀ x, Makes P (f x)) :
    Makes P (a >>= f) :=
  bind_of ha hf fun m m₁ m₂ h h' => by
    rcases h with h | h
    · rw [Within, ← h]
      exact h'
    · exact h.elim

/-- What changes nothing may come last. -/
theorem bind_still {a : Action α} {f : α → Action β} (ha : Makes P a)
    (hf : ∀ x, Makes .none (f x)) : Makes P (a >>= f) :=
  bind_of ha hf fun m m₁ m₂ h h' => by
    rcases h' with h' | h'
    · rw [Within, h']
      exact h
    · exact h'.elim

theorem get_bind {f : Machine → Action β} (hf : ∀ m, Makes P (f m)) : Makes P (get >>= f) :=
  fun m => hf m m

theorem pure (x : α) : Makes P (pure x) := fun _ => .ok (.inl rfl)

theorem throw {e : Error} (he : e.isRefusal = false) : Makes P (throw e : Action α) :=
  fun _ => .error (.inl rfl) he

theorem except {x : Except Error α} (h : ∀ e, x = .error e → e.isRefusal = false) :
    Makes P (ofExcept x : Action α) := by
  cases x with
  | ok x => exact pure x
  | error e => exact throw (h e rfl)

theorem asInt (v : Value) : Makes P (ofExcept v.asInt : Action Int32) :=
  except fun e h => by cases v <;> cases h <;> rfl

theorem asFloat (v : Value) : Makes P (ofExcept v.asFloat : Action Single) :=
  except fun e h => by cases v <;> cases h <;> rfl

theorem pop : Makes P pop := by
  intro m
  unfold Machine.pop
  split
  · exact .error (.inl rfl) rfl
  · exact .ok (.inl rfl)

theorem push (v : Value) : Makes P (push v) := by
  intro m
  unfold Machine.push
  split
  · exact .ok (.inl rfl)
  · exact .error (.inl rfl) rfl

theorem textOf (handle : UInt32) : Makes P (textOf handle) := by
  intro m
  unfold Machine.textOf
  split
  · exact .ok (.inl rfl)
  · exact .error (.inl rfl) rfl

theorem intern (text : String) : Makes P (intern text) := by
  intro m
  unfold Machine.intern
  split
  · exact .ok (.inl rfl)
  · exact .ok (.inl rfl)

theorem log (line : String) : Makes P (log line) := fun _ => .ok (.inl rfl)

theorem pushInt (n : Int32) : Makes P (pushInt n) := push _

theorem pushFloat (x : Single) : Makes P (pushFloat x) := push _

theorem pushBool (b : Bool) : Makes P (pushBool b) := push _

theorem pushText (text : String) : Makes P (pushText text) := bind (intern text) fun v => push v

theorem popInt : Makes P popInt := bind pop fun v => asInt v

theorem popFloat : Makes P popFloat := bind pop fun v => asFloat v

theorem popText : Makes P popText := by
  refine bind pop fun v => ?_
  cases v with
  | string handle => exact textOf handle
  | int n | float x | pointer address => exact throw rfl

theorem popMany (n : Nat) : Makes P (popMany n) := by
  induction n generalizing P with
  | zero => exact pure []
  | succ n ih => exact bind pop fun v => bind ih fun vs => pure (vs ++ [v])

/-! ### Arrays and files -/

theorem fill_trans {id : Int32} {k k₁ k₂ : ArrayStore × Disk} (h : Change.fill id k k₁)
    (h' : Change.fill id k₁ k₂) : Change.fill id k k₂ := by
  refine ⟨h'.1.trans h.1, fun hid => (h'.2.1 hid).trans (h.2.1 hid), fun old a hid ha => ?_⟩
  obtain ⟨b, hb⟩ := h.2.2 old a hid ha
  exact h'.2.2 old b hid hb

/-- Elements are set one after the other. -/
theorem bind_fill {id : Int32} {a : Action α} {f : α → Action β} (ha : Makes (.fill id) a)
    (hf : ∀ x, Makes (.fill id) (f x)) : Makes (.fill id) (a >>= f) :=
  bind_of ha hf fun m m₁ m₂ h h' => by
    rcases h, h' with ⟨h | h, h' | h'⟩
    · exact .inl (h'.trans h)
    · exact .inr (h ▸ h')
    · exact .inr (h'.symm ▸ h)
    · exact .inr (fill_trans h h')

theorem setArray (id : Int32) (key value : Value) : Makes (.fill id) (setArray id key value) :=
  fun _ => .ok (.inr ⟨rfl, fun hid => ArrayStore.set_of_slot?_eq_none hid key value,
    fun _ _ hid ha => ArrayStore.exists_set_eq_push hid ha key value⟩)

/-- A new array is filled by its number. Where no array is created the number is that of none. -/
theorem within_add {m m' : Machine} {length : Int32}
    (h : Within (.fill (m.arrays.create length).2)
      { m with arrays := (m.arrays.create length).1 } m') : Within .add m m' := by
  have hdisk : m'.disk = m.disk := by
    rcases h with h | h
    · exact congrArg Prod.snd h
    · exact h.1
  unfold ArrayStore.create at h
  cases hc : ValueArray.create? length with
  | none =>
    rw [hc] at h
    rcases h with h | h
    · exact .inl h
    · exact .inl (Prod.ext (h.2.1 rfl) hdisk)
  | some a =>
    rw [hc] at h
    refine .inr ⟨hdisk, fun hcount => ?_⟩
    rcases h with h | h
    · exact ⟨a, congrArg (fun k => k.1.arrays) h⟩
    rcases ArrayStore.slot?_ofNat_succ hcount with hid | hid
    · exact ⟨a, congrArg ArrayStore.arrays (h.2.1 hid)⟩
    · exact h.2.2 m.arrays.arrays a hid rfl

theorem create_bind (length : Int32) {f : Int32 → Action α} (hf : ∀ id, Makes (.fill id) (f id)) :
    Makes .add (createArray length >>= f) := by
  intro m
  have h := hf (m.arrays.create length).2 { m with arrays := (m.arrays.create length).1 }
  show Ends .add m (f (m.arrays.create length).2 { m with arrays := (m.arrays.create length).1 })
  cases hr : f (m.arrays.create length).2 { m with arrays := (m.arrays.create length).1 } with
  | ok x m' =>
    rw [hr] at h
    cases h with
    | ok h => exact .ok (within_add h)
  | error e m' =>
    rw [hr] at h
    cases h with
    | error h he => exact .error (within_add h) he

theorem within_write {disk : Disk} (h : disk = m.disk ∨ ∃ l bytes, disk = m.disk.put l bytes) :
    Within .write m { m with disk } := by
  rcases h with rfl | hput
  · exact .inl rfl
  · exact .inr ⟨rfl, hput⟩

theorem writeSetting (name value : String) : Makes .write (Operation.writeSetting name value) := by
  intro m
  unfold Operation.writeSetting
  rcases hw : m.settings.write m.disk name value with ⟨e | u, disk⟩
  · exact .ok (within_write (SettingStore.exists_put_of_write hw))
  · exact .ok (within_write (SettingStore.exists_put_of_write hw))

end Makes

end Machine

open Machine

variable {P : Change}

/-! ## Operations -/

namespace Operation

/-- What an operation may change for good. -/
def change : Operation → Change
  | iniSection | iniSections | table => .add
  | setIni => .write
  | floor | known | compare | find | format | toCase => .none

theorem makes_storeTexts (id : Int32) (i : Nat) (texts : List String) :
    Makes (.fill id) (storeTexts id i texts) := by
  induction texts generalizing i with
  | nil => exact .pure ()
  | cons text texts ih =>
    exact .bind (.intern text) fun v => .bind_fill (.setArray id _ v) fun _ => ih (i + 1)

theorem makes_storePairs (id : Int32) (pairs : List (String × String)) :
    Makes (.fill id) (storePairs id pairs) := by
  induction pairs with
  | nil => exact .pure ()
  | cons pair pairs ih =>
    exact .bind (.intern _) fun key => .bind (.intern _) fun v =>
      .bind_fill (.setArray id key v) fun _ => ih

theorem makes_pushTexts (texts : List String) : Makes .add (pushTexts texts) :=
  .create_bind _ fun id => .bind_still (makes_storeTexts id 0 texts) fun _ => .pushInt id

theorem makes_settingsOf (file : String) : Makes P (settingsOf file) := by
  refine .get_bind fun m => ?_
  split
  · exact .pure _
  · exact .pure _

theorem makes_settingText (v : Value) : Makes P (settingText v) := by
  cases v with
  | string handle => exact .textOf handle
  | int n | float x | pointer address => exact .bind (.asInt _) fun _ => .pure _

theorem makes_runIniSection : Makes .add runIniSection := by
  refine .bind .popText fun heading => .bind .popText fun file => ?_
  refine .create_bind _ fun id => .bind (makes_settingsOf file) fun c => ?_
  exact .bind_still (makes_storePairs id _) fun _ => .pushInt id

theorem makes_runSetIni : Makes .write runSetIni := by
  refine .bind .pop fun v => .bind .popText fun name => .bind (makes_settingText v) fun text => ?_
  refine .bind_still (.writeSetting name text) fun failure => ?_
  cases failure with
  | none => exact .pushInt (-1)
  | some e => exact .bind (.log _) fun _ => .pushInt (-1)

theorem makes_compareUnder (page : Option Int32) : Makes P (compareUnder page) :=
  .bind .popText fun _ => .bind .popText fun _ => .pushBool _

theorem makes_runCompare (args : Nat) : Makes P (runCompare args) := by
  unfold runCompare
  split
  · rw [map_eq_pure_bind, bind_assoc]
    exact .bind .popInt fun n => makes_compareUnder (some n)
  · exact makes_compareUnder none

theorem makes_findFrom (start : Int32) : Makes P (findFrom start) := by
  refine .bind .popText fun needle => .bind .popText fun haystack => ?_
  split
  · exact .bind (.log _) fun _ => .pushInt (-1)
  · split
    · exact .pushInt _
    · exact .pushInt (-1)

theorem makes_runFind (args : Nat) : Makes P (runFind args) := by
  unfold runFind
  split
  · exact .bind .popInt fun start => makes_findFrom start
  · exact makes_findFrom 0

theorem makes_runToCase : Makes P runToCase := by
  refine .bind .popInt fun case => .bind .popText fun text => ?_
  split
  · exact .pushText _
  · split
    · exact .pushText _
    · exact .bind (.log _) fun _ => .pushText text

theorem makes_run (op : Operation) (args : Nat) : Makes op.change (op.run args) := by
  cases op with
  | floor => exact .bind .pop fun v => .bind (.asFloat v) fun x => .pushInt x.floor
  | iniSection => exact makes_runIniSection
  | iniSections =>
    exact .bind .popText fun file => .bind (makes_settingsOf file) fun c =>
      makes_pushTexts c.headings
  | table => exact makes_pushTexts names
  | known => exact .bind .popText fun _ => .pushBool _
  | setIni => exact makes_runSetIni
  | compare => exact makes_runCompare args
  | find => exact makes_runFind args
  | format =>
    exact .bind (.popMany _) fun _ => .bind .popText fun _ => .get_bind fun _ => .pushText _
  | toCase => exact makes_runToCase

theorem makes_runBalanced (op : Operation) (name : String) (args : Nat) :
    Makes op.change (runBalanced op name args) := by
  refine .get_bind fun before => .bind_still (op.makes_run args) fun _ => ?_
  refine .get_bind fun found => ?_
  dsimp only
  split
  · exact .throw rfl
  · exact .pure ()

end Operation

/-! ## Opcodes -/

/-- What an opcode may change for good, other than an element of an array that it is given and what
an operation changes that it calls. -/
def Opcode.change : Opcode → Change
  | tempArray => .add
  | _ => .none

namespace Machine

theorem makes_stepFloat (f : Single → Single) : Makes P (stepFloat f) :=
  .bind .popFloat fun x => .pushFloat (f x)

theorem makes_stepRound (f : Single → Int32) : Makes P (stepRound f) :=
  .bind .popFloat fun x => .pushInt (f x)

theorem makes_stepAbs : Makes P stepAbs := by
  refine .bind .pop fun v => ?_
  cases v with
  | int n => exact .pushInt _
  | float x | string handle | pointer address => exact .bind (.asFloat _) fun y => .pushFloat y.abs

theorem makes_stepPower : Makes P stepPower := by
  refine .bind .pop fun exponent => .bind .pop fun base => ?_
  refine .bind (.asFloat base) fun b => .bind (.asFloat exponent) fun e => ?_
  split
  · exact .pushInt _
  · exact .pushFloat _

theorem makes_stepDiv : Makes P stepDiv := by
  refine .bind .pop fun divisor => .bind .pop fun dividend => .bind (.asFloat divisor) fun d => ?_
  split
  · exact .bind (.log _) fun _ => .pushInt 0
  · split
    · exact .bind (.asFloat dividend) fun x => .pushFloat (x.div d)
    · exact .bind (.asInt dividend) fun a => .bind (.asInt divisor) fun b =>
        .pushInt (divUnsigned a b)

theorem makes_stepGetIniSetting : Makes P stepGetIniSetting := by
  refine .bind .popText fun name => .get_bind fun m => ?_
  split
  · exact .pushInt _
  · exact .pushInt (-1)

theorem makes_stepGetIniString : Makes P stepGetIniString := by
  refine .bind .popText fun name => .get_bind fun m => ?_
  split
  · exact .pushText _
  · exact .pushInt (-1)

theorem makes_stepGetArray : Makes P stepGetArray := by
  refine .bind .pop fun key => .bind .pop fun target => ?_
  split
  · exact .bind (.textOf _) fun text => .pushText _
  · exact .bind (.asInt target) fun id => .get_bind fun m => .push _

theorem makes_ofText (f : String → Int32) : Makes P (popText >>= fun text => pushInt (f text)) :=
  .bind .popText fun text => .pushInt (f text)

/-- Every opcode that sets no element and calls no operation makes the change that it may make. -/
theorem makes_step (op : Opcode) (hset : op ≠ .setArray) (hcall : ∀ args, op ≠ .call args) :
    Makes op.change (step op) := by
  cases op with
  | getIniSetting => exact makes_stepGetIniSetting
  | getIniString => exact makes_stepGetIniString
  | sqrt | sin | cos | tan | log | exponent => exact makes_stepFloat _
  | abs => exact makes_stepAbs
  | arctan => exact .bind .popFloat fun x => .bind .popFloat fun y => .pushFloat (y.atan2 x)
  | versionMajor | versionMinor | versionBuild => exact .pushInt _
  | setArray => exact absurd rfl hset
  | getArray => exact makes_stepGetArray
  | lenArray => exact .bind .popInt fun _ => .get_bind fun _ => .pushInt _
  | tempArray =>
    exact .bind .popInt fun _ => .bind .popInt fun length => .create_bind length fun id =>
      .pushInt id
  | atoi | strlen | charcode => exact makes_ofText _
  | atof => exact .bind .popText fun _ => .pushFloat _
  | substr =>
    exact .bind .popInt fun _ => .bind .popInt fun _ => .bind .popText fun _ => .pushText _
  | sprintf => exact .bind .pop fun _ => .bind .popText fun _ => .get_bind fun _ => .pushText _
  | typeOf => exact .bind .pop fun v => .pushInt v.typeCode
  | arrayKey => exact .bind .popInt fun _ => .bind .popInt fun _ => .get_bind fun _ => .push _
  | power => exact makes_stepPower
  | ceil | round => exact makes_stepRound _
  | div => exact makes_stepDiv
  | call args => exact absurd rfl (hcall args)

end Machine

end StackScript
