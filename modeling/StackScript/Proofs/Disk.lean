import Mathlib
import StackScript.Disk

/-!
# Reading and writing files

* `IsFileAt path l`: the path names the location `l`, and a file can stand there.
* `read_eq_ok_iff`, `readText_eq_ok_iff` and `create_eq_ok_iff`: when files are read, and opened for
  writing.
* `write_eq_ok_iff` and `write_eq_error_iff`: when a file is written, and what is left where that
  fails, before the file is open or after. `write_full`: on a full disk the file is emptied.
* `readText_put_self`, `readText_put_of_not`: after a write, the paths of its file give the text
  that was written, all others what they gave before.
-/

namespace StackScript

namespace Disk

/-- The path names the location, and a file can stand there. -/
structure IsFileAt (d : Disk) (path : String) (l : Location) : Prop where
  resolve : d.resolve path = .ok l
  directory : d.isDirectory l = false
  slash : path.endsWith "/" = false

variable {d d' : Disk} {path : String} {l l' : Location} {bytes : ByteArray} {text : String}

theorem read_eq_ok_iff :
    d.read path = .ok bytes ↔ ∃ l, d.IsFileAt path l ∧ d.contents? l = some bytes := by
  unfold read
  simp only [bind, Except.bind]
  constructor
  · intro h
    cases hr : d.resolve path with
    | error e => simp [hr] at h
    | ok l =>
      cases hd : d.isDirectory l with
      | true => simp [hr, hd, throw, throwThe, MonadExceptOf.throw] at h
      | false =>
        cases hc : d.contents? l with
        | none => simp [hr, hd, hc, throw, throwThe, MonadExceptOf.throw] at h
        | some b =>
          cases hs : path.endsWith "/" with
          | true => simp [hr, hd, hc, hs, throw, throwThe, MonadExceptOf.throw] at h
          | false =>
            obtain rfl : b = bytes := by simpa [hr, hd, hc, hs, pure, Except.pure] using h
            exact ⟨l, ⟨hr, hd, hs⟩, hc⟩
  · rintro ⟨l, ⟨hr, hd, hs⟩, hc⟩
    simp [hr, hd, hc, hs, pure, Except.pure]

theorem fromUTF8?_eq_some_iff : String.fromUTF8? bytes = some text ↔ bytes = text.toUTF8 := by
  unfold String.fromUTF8?
  constructor
  · intro h
    split at h
    · obtain rfl := Option.some.inj h
      rfl
    · cases h
  · rintro rfl
    have hv : text.toUTF8.IsValidUTF8 := text.isValidUTF8
    rw [dif_pos hv]
    rfl

theorem readText_eq_ok_iff :
    d.readText path = .ok text ↔ ∃ l, d.IsFileAt path l ∧ d.contents? l = some text.toUTF8 := by
  rw [← read_eq_ok_iff]
  unfold readText
  simp only [bind, Except.bind]
  cases hr : d.read path with
  | error e => simp
  | ok bytes =>
    rw [Except.ok.injEq, ← fromUTF8?_eq_some_iff]
    cases hu : String.fromUTF8? bytes <;>
      simp [hu, pure, Except.pure, throw, throwThe, MonadExceptOf.throw]

theorem create_eq_ok_iff :
    d.create path = .ok l ↔ d.IsFileAt path l ∧ d.isDirectory (above l) = true := by
  unfold create
  simp only [bind, Except.bind]
  constructor
  · intro h
    cases hr : d.resolve path with
    | error e => simp [hr] at h
    | ok k =>
      cases hd : d.isDirectory k || path.endsWith "/" with
      | true => simp [hr, hd, throw, throwThe, MonadExceptOf.throw] at h
      | false =>
        cases ha : d.isDirectory (above k) with
        | false => simp [hr, hd, ha, throw, throwThe, MonadExceptOf.throw] at h
        | true =>
          obtain ⟨hd, hs⟩ := Bool.or_eq_false_iff.mp hd
          obtain rfl : k = l := by simpa [hr, hd, hs, ha, pure, Except.pure] using h
          exact ⟨⟨hr, hd, hs⟩, ha⟩
  · rintro ⟨⟨hr, hd, hs⟩, ha⟩
    simp [hr, hd, hs, ha, pure, Except.pure]

/-- A file is written if it can be opened and the system takes all bytes. -/
theorem write_eq_ok_iff :
    d.write path bytes = (.ok (), d') ↔
      ∃ l, d.create path = .ok l ∧ d.stops l bytes = none ∧ d' = d.put l bytes := by
  unfold write
  cases hc : d.create path with
  | error e => simp
  | ok l =>
    cases hs : d.stops l bytes with
    | none => simp [hs, eq_comm]
    | some stop => simp [hs]

/-- A write fails before the file is open, and then changes nothing, or after, and then leaves the
first bytes in the file. -/
theorem write_eq_error_iff {e : FileError} :
    d.write path bytes = (.error e, d') ↔
      (d.create path = .error e ∧ d' = d) ∨
        ∃ l n, d.create path = .ok l ∧ d.stops l bytes = some (e, n) ∧
          d' = d.put l (bytes.extract 0 n) := by
  unfold write
  cases hc : d.create path with
  | error e => simp [eq_comm]
  | ok l =>
    cases hs : d.stops l bytes with
    | none => simp [hs]
    | some stop =>
      obtain ⟨f, n⟩ := stop
      simp only [hs]
      constructor
      · intro h
        obtain ⟨he, rfl⟩ := Prod.mk.inj h
        obtain rfl := Except.error.inj he
        exact .inr ⟨l, n, rfl, hs, rfl⟩
      · rintro (⟨h, -⟩ | ⟨k, n', hk, hs', rfl⟩)
        · cases h
        · cases hk
          cases hs.symm.trans hs'
          rfl

/-- The bytes of texts are those of valid UTF-8. -/
theorem isValidUTF8_iff : bytes.IsValidUTF8 ↔ ∃ text : String, bytes = text.toUTF8 := by
  constructor
  · intro h
    exact ⟨String.ofByteArray bytes h, rfl⟩
  · rintro ⟨text, rfl⟩
    exact text.isValidUTF8

/-! ## Disks that take more or less -/

/-- The disk as another system serves it. -/
def withStops (d : Disk) (stops : Stops) : Disk := { d with stops }

theorem readText_withStops (d : Disk) (stops : Stops) (path : String) :
    (d.withStops stops).readText path = d.readText path := rfl

theorem create_withStops (d : Disk) (stops : Stops) (path : String) :
    (d.withStops stops).create path = d.create path := rfl

/-- The disk with no room left, not even what a file gives up when it is opened. -/
def full (d : Disk) : Disk :=
  d.withStops fun _ bytes => if h : 0 < bytes.size then some (.noSpace, ⟨0, h⟩) else none

/-- A full disk takes nothing of a file. -/
theorem write_full (h : d.create path = .ok l) (hpos : 0 < bytes.size) :
    d.full.write path bytes = (.error .noSpace, d.full.put l .empty) := by
  have hs : d.full.stops l bytes = some (.noSpace, ⟨0, hpos⟩) := dif_pos hpos
  apply write_eq_error_iff.mpr
  refine .inr ⟨l, ⟨0, hpos⟩, h, hs, ?_⟩
  rw [ByteArray.extract_same]

/-! ## After a write -/

@[simp] theorem isDirectory_put (d : Disk) (l l' : Location) (bytes : ByteArray) :
    (d.put l bytes).isDirectory l' = d.isDirectory l' := rfl

/-- Files are no steps on the way to other files. -/
theorem enter_put_eq_ok_iff {name : String} {a b : Location} :
    (d.put l bytes).enter a name = .ok b ↔ d.enter a name = .ok b := by
  unfold enter
  rw [isDirectory_put]
  cases d.isDirectory a <;> simp

theorem resolve_put_eq_ok_iff :
    (d.put l bytes).resolve path = .ok l' ↔ d.resolve path = .ok l' := by
  unfold resolve
  split
  · exact Iff.rfl
  · split
    · exact Iff.rfl
    · generalize origin path = a
      induction names path generalizing a with
      | nil => exact Iff.rfl
      | cons name ns ih =>
        simp only [List.foldlM_cons, bind, Except.bind]
        cases he : d.enter a name with
        | ok b =>
          rw [enter_put_eq_ok_iff.mpr he]
          exact ih b
        | error e =>
          cases he' : (d.put l bytes).enter a name with
          | ok b =>
            rw [enter_put_eq_ok_iff.mp he'] at he
            cases he
          | error e' => simp

theorem isFileAt_put_iff : (d.put l bytes).IsFileAt path l' ↔ d.IsFileAt path l' :=
  ⟨fun ⟨hr, hd, hs⟩ => ⟨resolve_put_eq_ok_iff.mp hr, hd, hs⟩,
    fun ⟨hr, hd, hs⟩ => ⟨resolve_put_eq_ok_iff.mpr hr, hd, hs⟩⟩

/-- A text that was written is read at every path of its file. -/
theorem readText_put_self (h : d.IsFileAt path l) :
    (d.put l text.toUTF8).readText path = .ok text :=
  readText_eq_ok_iff.mpr ⟨l, isFileAt_put_iff.mpr h, contents?_put_self d l _⟩

/-- A path of no other file gives what it gave before. -/
theorem readText_put_of_not {other : String} (h : ¬ d.IsFileAt path l) :
    (d.put l bytes).readText path = .ok other ↔ d.readText path = .ok other := by
  simp only [readText_eq_ok_iff, isFileAt_put_iff]
  constructor
  · rintro ⟨l', hf, hc⟩
    have hne : l ≠ l' := by
      rintro rfl
      exact h hf
    exact ⟨l', hf, by rwa [contents?_put_of_ne _ _ hne] at hc⟩
  · rintro ⟨l', hf, hc⟩
    have hne : l ≠ l' := by
      rintro rfl
      exact h hf
    exact ⟨l', hf, by rwa [contents?_put_of_ne _ _ hne]⟩

end Disk

end StackScript
