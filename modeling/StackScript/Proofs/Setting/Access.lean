import StackScript.Proofs.Setting.Failure

/-!
# Names of settings and the files behind them

A name is taken apart before any file is reached.

* `Triplet.parse_eq_ok_iff` and `Triplet.parse_eq_error_iff`: which names have parts, and what is
  said of the others.
* `Access` is a way to reach files: one is read, or a text is written to one, each in any monad.
  Settings are read and written through it; on a disk this is what `SettingStore` does
  (`getText_onDisk`, `getInt_onDisk`, `setText_onDisk`).
* `parse_exact` is the statement for all names: those without parts are refused alike, and no file
  is reached for them.
-/

namespace StackScript

open Text

namespace Triplet

variable {name : String} {t : Triplet} {e : Error}

/-- A text that no three parts make up. -/
def IsMalformed (name : String) : Prop := ∀ t : Triplet, t.IsName → t.text ≠ name

theorem parse_eq_ok_iff : parse name = .ok t ↔ name = t.text ∧ t.IsName := by
  constructor
  · intro h
    obtain ⟨htext, hname⟩ := text_of_parse h
    exact ⟨htext.symm, hname⟩
  · rintro ⟨rfl, hname⟩
    exact parse_text hname

/-- A name without parts is named in the fault. -/
theorem parse_cases (name : String) :
    (∃ t, parse name = .ok t) ∨ parse name = .error (.malformedTriplet name) := by
  unfold parse
  split
  · exact .inl ⟨_, rfl⟩
  · exact .inr rfl

theorem not_isMalformed (h : parse name = .ok t) : ¬ IsMalformed name := by
  obtain ⟨htext, hname⟩ := text_of_parse h
  exact fun hm => hm t hname htext

theorem parse_eq_error_iff :
    parse name = .error e ↔ e = .malformedTriplet name ∧ IsMalformed name := by
  constructor
  · intro h
    rcases parse_cases name with ⟨t, ht⟩ | hn
    · rw [h] at ht
      cases ht
    · refine ⟨Except.error.inj (h.symm.trans hn), ?_⟩
      rintro t hname rfl
      rw [parse_text hname] at h
      cases h
  · rintro ⟨rfl, hm⟩
    rcases parse_cases name with ⟨t, ht⟩ | hn
    · exact absurd hm (not_isMalformed ht)
    · exact hn

end Triplet

/-! ## Reaching files -/

/-- A way to reach files. -/
structure Access (m : Type → Type) where
  /-- The settings in the file that a path names. -/
  read : String → m (Option Config)
  /-- Gives the file that a path names a text. -/
  write : String → String → m (Except FileError Unit)

namespace Access

variable {m : Type → Type} [Monad m] (a : Access m) (s : SettingStore)

/-- The first of the paths that holds settings, with these; the last path if none does. -/
def firstReadable (last : String) : List String → m (String × Option Config)
  | [] => pure (last, none)
  | path :: paths => do
    match ← a.read path with
    | some c => pure (path, some c)
    | none => firstReadable path paths

/-- Where a file is read from and what it holds. -/
def locate (file : String) : m (String × Option Config) := a.firstReadable file (s.candidates file)

/-- The value of a setting as a text of less than `size` bytes. -/
def getText (name : String) (size : Nat) : m (Except Error String) :=
  match Triplet.parse name with
  | .error e => pure (.error e)
  | .ok t => do
    let found := (← a.locate s t.file).2.bind (·.get? t.heading t.key)
    pure (.ok (truncate (found.getD "") (size - 1)))

/-- The value of a setting as an integer. -/
def getInt (name : String) : m (Except Error Int32) :=
  match Triplet.parse name with
  | .error e => pure (.error e)
  | .ok t => do
    match ← a.locate s t.file with
    | (path, none) => pure (.error (.storageUnavailable path))
    | (_, some c) =>
      match c.get? t.heading t.key with
      | none => pure (.error (.keyNotFound name))
      | some value => pure (.ok (Numeral.leadingInt (truncate value SettingStore.maxIntText)))

/-- Gives a setting a value. -/
def setText (name value : String) : m (Except Error Unit) :=
  match Triplet.parse name with
  | .error e => pure (.error e)
  | .ok t => do
    let (path, found) ← a.locate s t.file
    match ← a.write path ((found.getD {}).set t.heading t.key value).render with
    | .ok () => pure (.ok ())
    | .error e => pure (.error (.io e.message))

/-- The files of a disk. -/
def onDisk : Access (StateM Disk) where
  read path d := (SettingStore.readConfig? d path, d)
  write path text d := d.write path text.toUTF8

theorem firstReadable_onDisk (d : Disk) (last : String) (paths : List String) :
    onDisk.firstReadable last paths d = (SettingStore.firstReadable d last paths, d) := by
  induction paths generalizing last with
  | nil => rfl
  | cons path paths ih =>
    rw [SettingStore.firstReadable]
    cases h : SettingStore.readConfig? d path with
    | none =>
      rw [← ih path]
      simp [firstReadable, onDisk, bind, StateT.bind, h]
    | some c => simp [firstReadable, onDisk, bind, StateT.bind, pure, StateT.pure, h]

theorem locate_onDisk (d : Disk) (file : String) :
    onDisk.locate s file d = (s.locate d file, d) := firstReadable_onDisk d file _

theorem getText_onDisk (d : Disk) (name : String) (size : Nat) :
    onDisk.getText s name size d = (s.getText d name size, d) := by
  unfold getText SettingStore.getText
  cases Triplet.parse name with
  | error e => rfl
  | ok t =>
    simp [bind, StateT.bind, Except.bind, pure, StateT.pure, Except.pure, locate_onDisk]

theorem getInt_onDisk (d : Disk) (name : String) :
    onDisk.getInt s name d = (s.getInt d name, d) := by
  unfold getInt SettingStore.getInt SettingStore.load
  cases Triplet.parse name with
  | error e => rfl
  | ok t =>
    simp only [bind, StateT.bind, Except.bind, locate_onDisk]
    rcases s.locate d t.file with ⟨path, _ | c⟩
    · rfl
    · dsimp only
      cases c.get? t.heading t.key <;> rfl

/-- What comes of a write, and the disk that it leaves, be it done or failed. -/
theorem setText_onDisk (d : Disk) (name value : String) :
    onDisk.setText s name value d = s.write d name value := by
  unfold setText SettingStore.write
  cases Triplet.parse name with
  | error e => rfl
  | ok t =>
    simp only [bind, StateT.bind, locate_onDisk]
    rcases s.locate d t.file with ⟨path, found⟩
    dsimp only [onDisk]
    rcases d.write path ((found.getD {}).set t.heading t.key value).render.toUTF8
      with ⟨e | u, d'⟩ <;> rfl

end Access

/-! ## Names that are refused -/

/-- What goes on with the parts of a name, and does not find fault with a name itself, fails with
one exactly where there are no parts. -/
theorem Triplet.parse_bind_eq_error_iff {α : Type} {f : Triplet → Except Error α} {name x : String}
    (h : ∀ t, f t ≠ .error (.malformedTriplet x)) :
    (parse name >>= f) = .error (.malformedTriplet x) ↔ x = name ∧ IsMalformed name := by
  rw [← Error.malformedTriplet.injEq, ← parse_eq_error_iff]
  cases parse name with
  | error e => simp [bind, Except.bind]
  | ok t => simpa [bind, Except.bind] using h t

namespace SettingStore

variable (s : SettingStore) (d : Disk) {name x : String}

theorem getText_eq_error_iff {size : ℕ} : s.getText d name size = .error (.malformedTriplet x) ↔
    x = name ∧ Triplet.IsMalformed name :=
  Triplet.parse_bind_eq_error_iff fun _ => nofun

theorem getInt_eq_error_iff : s.getInt d name = .error (.malformedTriplet x) ↔
    x = name ∧ Triplet.IsMalformed name := by
  refine Triplet.parse_bind_eq_error_iff fun t => ?_
  unfold load
  rcases s.locate d t.file with ⟨path, _ | c⟩
  · nofun
  · show (match c.get? t.heading t.key with | none => _ | some value => _) ≠ _
    cases c.get? t.heading t.key <;> nofun

theorem setText_eq_error_iff {value : String} :
    s.setText d name value = .error (.malformedTriplet x) ↔
      x = name ∧ Triplet.IsMalformed name := by
  rw [setText_eq_error_iff_write]
  constructor
  · rintro ⟨d', hw⟩
    cases write_eq_error_iff.mp hw with
    | malformed h =>
      obtain ⟨hx, hm⟩ := Triplet.parse_eq_error_iff.mp h
      exact ⟨Error.malformedTriplet.inj hx, hm⟩
  · rintro ⟨rfl, hm⟩
    exact ⟨d, write_of_malformed (Triplet.parse_eq_error_iff.mpr ⟨rfl, hm⟩)⟩

end SettingStore

namespace Access

/-- A name without parts is refused before any file is reached. -/
theorem refuses {m : Type → Type} [Monad m] (a : Access m) (s : SettingStore)
    {name : String} (h : Triplet.IsMalformed name) (value : String) (size : ℕ) :
    a.getText s name size = pure (.error (.malformedTriplet name)) ∧
      a.getInt s name = pure (.error (.malformedTriplet name)) ∧
      a.setText s name value = pure (.error (.malformedTriplet name)) := by
  have hparse : Triplet.parse name = .error (.malformedTriplet name) :=
    Triplet.parse_eq_error_iff.mpr ⟨rfl, h⟩
  unfold getText getInt setText
  rw [hparse]
  exact ⟨rfl, rfl, rfl⟩

/-- A name has the parts that make it up, and no others: a file and a heading without bars and of
the lengths allowed, and a key. Where there are none, the name is refused as malformed. Reading and
writing a setting fails in this way for these names only, on every disk, and is then done without
any access to files. -/
theorem parse_exact (name : String) :
    (∀ t, Triplet.parse name = .ok t ↔ name = t.text ∧ t.IsName) ∧
      (∀ e, Triplet.parse name = .error e ↔
        e = .malformedTriplet name ∧ Triplet.IsMalformed name) ∧
      (∀ (s : SettingStore) (d : Disk) (x value : String) (size : ℕ),
        (s.getText d name size = .error (.malformedTriplet x) ↔
          x = name ∧ Triplet.IsMalformed name) ∧
        (s.getInt d name = .error (.malformedTriplet x) ↔ x = name ∧ Triplet.IsMalformed name) ∧
        (s.setText d name value = .error (.malformedTriplet x) ↔
          x = name ∧ Triplet.IsMalformed name)) ∧
      (∀ (s : SettingStore) (d : Disk) (value : String) (size : ℕ),
        onDisk.getText s name size d = (s.getText d name size, d) ∧
        onDisk.getInt s name d = (s.getInt d name, d) ∧
        onDisk.setText s name value d = s.write d name value) ∧
      (Triplet.IsMalformed name → ∀ (m : Type → Type) [Monad m] (a : Access m) (s : SettingStore)
        (value : String) (size : ℕ),
        a.getText s name size = pure (.error (.malformedTriplet name)) ∧
          a.getInt s name = pure (.error (.malformedTriplet name)) ∧
          a.setText s name value = pure (.error (.malformedTriplet name))) := by
  refine ⟨fun t => Triplet.parse_eq_ok_iff, fun e => Triplet.parse_eq_error_iff, ?_, ?_, ?_⟩
  · intro s d x value size
    exact ⟨s.getText_eq_error_iff d, s.getInt_eq_error_iff d, s.setText_eq_error_iff d⟩
  · intro s d value size
    exact ⟨getText_onDisk s d name size, getInt_onDisk s d name, setText_onDisk s d name value⟩
  · intro h m _ a s value size
    exact a.refuses s h value size

/-- One bar is not enough, and a third one belongs to the key. -/
theorem parse_exact_bars :
    Triplet.IsMalformed "a.ini|A" ∧
      (∀ (m : Type → Type) [Monad m] (a : Access m) (s : SettingStore),
        a.getInt s "a.ini|A" = pure (.error (.malformedTriplet "a.ini|A"))) ∧
      Triplet.parse "a.ini|A|k|x" = .ok ⟨"a.ini", "A", "k|x"⟩ := by
  obtain ⟨-, herror, -, -, hreach⟩ := parse_exact "a.ini|A"
  have hm : Triplet.IsMalformed "a.ini|A" := ((herror _).mp rfl).2
  refine ⟨hm, fun m _ a s => (hreach hm m a s "" 0).2.1, ?_⟩
  obtain ⟨hok, -⟩ := parse_exact "a.ini|A|k|x"
  exact (hok _).mpr ⟨rfl, by decide, by decide, by decide, by decide⟩

end Access

end StackScript
