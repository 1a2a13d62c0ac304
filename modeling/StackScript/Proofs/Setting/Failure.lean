import StackScript.Proofs.Setting.Frame

/-!
# Settings that are not written

What is left of the files when a setting is not written.

* `write_eq_error_iff`: why a write fails, and the disk that it leaves (`Fails`).
* `Fails.leaves`: a setting that is refused before a file is open (`Refuses`) changes no file, any
  other one leaves a part of the new text in its file (`CutShort`).
* `exists_put_of_write`: whatever comes of a write, at most one file changes.
* `write_full`: on a full disk every setting that is not refused empties its file.
-/

namespace StackScript

/-! ## The text that is written -/

/-- A text that holds a setting begins with a heading. -/
theorem Config.head?_render_set (c : Config) (heading key value : String) :
    (c.set heading key value).render.toList.head? = some '[' := by
  obtain ⟨e, es, he⟩ := c.sections.exists_entries_update heading fun settings =>
    (settings.getD {}).insert key value
  rw [render, set, he, String.toList_ofList]
  cases es with
  | nil => simp [sectionText, headingLine]
  | cons e' es => simp [sectionText, headingLine]

theorem Config.size_render_set_pos (c : Config) (heading key value : String) :
    0 < (c.set heading key value).render.toUTF8.size := by
  have h := head?_render_set c heading key value
  apply Nat.pos_of_ne_zero
  intro h0
  have hempty : (c.set heading key value).render = "" := String.utf8ByteSize_eq_zero_iff.mp h0
  rw [hempty] at h
  cases h

namespace SettingStore

variable {s : SettingStore} {d d' : Disk} {name value : String}

/-! ## What a write leaves -/

/-- Why a setting is not written, and the disk that is left: its name has not the right form, no
file can be opened at its path, or the system stops when the file is open and empty. -/
inductive Fails (s : SettingStore) (d : Disk) (name value : String) : Error → Disk → Prop
  | malformed {e : Error} (h : Triplet.parse name = .error e) : Fails s d name value e d
  | refused {t : Triplet} {e : FileError} (ht : Triplet.parse name = .ok t)
      (h : d.create (s.locate d t.file).1 = .error e) : Fails s d name value (.io e.message) d
  | stopped {t : Triplet} {l : Location} {e : FileError}
      {n : Fin (s.written d t value).render.toUTF8.size} (ht : Triplet.parse name = .ok t)
      (hl : d.create (s.locate d t.file).1 = .ok l)
      (h : d.stops l (s.written d t value).render.toUTF8 = some (e, n)) :
      Fails s d name value (.io e.message)
        (d.put l ((s.written d t value).render.toUTF8.extract 0 n))

theorem write_eq_error_iff {e : Error} :
    s.write d name value = (.error e, d') ↔ s.Fails d name value e d' := by
  constructor
  · intro h
    cases ht : Triplet.parse name with
    | error f =>
      rw [write_of_malformed ht] at h
      cases h
      exact .malformed ht
    | ok t =>
      rw [write_of_parse ht] at h
      rcases hw : d.write (s.locate d t.file).1 (s.written d t value).render.toUTF8
        with ⟨f | u, d₁⟩
      · rw [hw] at h
        cases h
        rcases Disk.write_eq_error_iff.mp hw with ⟨hc, rfl⟩ | ⟨l, n, hl, hs, rfl⟩
        · exact .refused ht hc
        · exact .stopped ht hl hs
      · rw [hw] at h
        cases h
  · intro h
    cases h with
    | malformed h => exact write_of_malformed h
    | refused ht h =>
      rw [write_of_parse ht, Disk.write_eq_error_iff.mpr (.inl ⟨h, rfl⟩)]
      rfl
    | stopped ht hl h =>
      rw [write_of_parse ht, Disk.write_eq_error_iff.mpr (.inr ⟨_, _, hl, h, rfl⟩)]
      rfl

/-- A setting is refused before a file is open. -/
def Refuses (s : SettingStore) (d : Disk) (name : String) : Prop :=
  (∃ e, Triplet.parse name = .error e) ∨
    ∃ t e, Triplet.parse name = .ok t ∧ d.create (s.locate d t.file).1 = .error e

/-- What is left of a file that was opened for a setting, if not all of the text was written: a part
of the text, from its beginning on. -/
def CutShort (s : SettingStore) (d : Disk) (name value : String) (d' : Disk) : Prop :=
  ∃ t l n, Triplet.parse name = .ok t ∧ d.create (s.locate d t.file).1 = .ok l ∧
    n < (s.written d t value).render.toUTF8.size ∧
    d' = d.put l ((s.written d t value).render.toUTF8.extract 0 n)

/-- A setting that is refused changes no file, and one that is not written for another reason cuts
its file short. -/
theorem Fails.leaves {e : Error} (h : s.Fails d name value e d') :
    (s.Refuses d name → d' = d) ∧ (¬ s.Refuses d name → s.CutShort d name value d') := by
  cases h with
  | malformed hp => exact ⟨fun _ => rfl, fun hn => absurd (.inl ⟨_, hp⟩) hn⟩
  | refused ht hc => exact ⟨fun _ => rfl, fun hn => absurd (.inr ⟨_, _, ht, hc⟩) hn⟩
  | @stopped t l f n ht hl hs =>
    constructor
    · rintro (⟨e, he⟩ | ⟨t', e, ht', he⟩)
      · rw [ht] at he
        cases he
      · obtain rfl : t = t' := Except.ok.inj (ht.symm.trans ht')
        rw [hl] at he
        cases he
    · intro _
      exact ⟨t, l, n, ht, hl, n.isLt, rfl⟩

/-- Whatever comes of a write, at most one file changes. -/
theorem exists_put_of_write {outcome : Except Error Unit}
    (h : s.write d name value = (outcome, d')) : d' = d ∨ ∃ l bytes, d' = d.put l bytes := by
  cases outcome with
  | error e =>
    cases write_eq_error_iff.mp h with
    | malformed | refused => exact .inl rfl
    | stopped => exact .inr ⟨_, _, rfl⟩
  | ok u =>
    cases ht : Triplet.parse name with
    | error e =>
      rw [write_of_malformed ht] at h
      cases h
    | ok t =>
      obtain ⟨l, -, -, -, hd⟩ := (setText_eq_ok_iff ht).mp (setText_eq_ok_iff_write.mpr h)
      exact .inr ⟨l, _, hd⟩

theorem setText_eq_error_iff_write {e : Error} :
    s.setText d name value = .error e ↔ ∃ d', s.write d name value = (.error e, d') := by
  unfold setText
  rcases s.write d name value with ⟨e | u, d₁⟩ <;> simp

/-! ## Full disks -/

/-- On a full disk a setting that is given a value is lost with all others of its file. -/
theorem write_full {t : Triplet} {l : Location} (ht : Triplet.parse name = .ok t)
    (hl : d.create (s.locate d t.file).1 = .ok l) (value : String) :
    s.write d.full name value =
      (.error (.io FileError.noSpace.message), d.full.put l .empty) := by
  have hlocate : s.locate d.full t.file = s.locate d t.file := locate_withStops s d _ t.file
  have hpos : 0 < (s.written d.full t value).render.toUTF8.size :=
    Config.size_render_set_pos _ t.heading t.key value
  rw [write_of_parse ht, hlocate, Disk.write_full hl hpos]
  rfl

end SettingStore

end StackScript
