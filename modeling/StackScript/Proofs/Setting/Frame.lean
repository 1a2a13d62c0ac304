import StackScript.Proofs.Config.Contained
import StackScript.Proofs.Disk
import StackScript.Setting.Store

/-!
# What writing a setting changes

* `setText_eq_ok_iff`: when a setting is written, and to which file.
* `locate_put`: the file to which it was written is the one that is read afterwards.
* `setText_frame_iff`: all other settings of a file keep their values, whatever the disk, exactly if
  the setting is contained.
* `setText_amends_iff`: a file that is there before a write is amended exactly if it is a text; any
  other file is lost.
-/

namespace StackScript

namespace SettingStore

variable {s : SettingStore} {d d' : Disk} {name value file : String}

theorem readConfig?_eq_some_iff {path : String} {c : Config} :
    readConfig? d path = some c ↔ ∃ text, d.readText path = .ok text ∧ Config.parse text = c := by
  unfold readConfig?
  cases d.readText path <;> simp

theorem getLast?_candidates (s : SettingStore) (file : String) :
    (s.candidates file).getLast? = some file := by
  unfold candidates
  split
  · split <;> rfl
  · rfl

/-- The path from which settings are read, or to which they would be written, names the file that is
read after a write to it. -/
theorem firstReadable_put {last : String} {paths : List String} {l : Location} (text : String)
    (hp : paths.getLast? = some last) (hl : d.IsFileAt (firstReadable d last paths).1 l) :
    ∃ path, d.IsFileAt path l ∧ firstReadable (d.put l text.toUTF8) last paths =
      (path, some (Config.parse text)) := by
  induction paths with
  | nil => cases hp
  | cons path paths ih =>
    by_cases hf : d.IsFileAt path l
    · refine ⟨path, hf, ?_⟩
      rw [firstReadable, readConfig?, Disk.readText_put_self hf]
    · have hr : readConfig? d path = none := by
        cases hr : readConfig? d path with
        | none => rfl
        | some c =>
          rw [firstReadable, hr] at hl
          exact absurd hl hf
      have hr' : readConfig? (d.put l text.toUTF8) path = none := by
        cases hr' : readConfig? (d.put l text.toUTF8) path with
        | none => rfl
        | some c =>
          obtain ⟨other, ho, rfl⟩ := readConfig?_eq_some_iff.mp hr'
          have := readConfig?_eq_some_iff.mpr ⟨other, (Disk.readText_put_of_not hf).mp ho, rfl⟩
          rw [hr] at this
          cases this
      rw [firstReadable, hr] at hl
      cases paths with
      | nil =>
        -- The last path is the one that is written to when no file is read.
        obtain rfl : path = last := by simpa using hp
        exact absurd hl hf
      | cons next paths =>
        rw [firstReadable, hr']
        exact ih (by simpa using hp) hl

/-- The file of the path that was located is located after a write to it. -/
theorem locate_put {l : Location} (text : String) (hl : d.IsFileAt (s.locate d file).1 l) :
    ∃ path, d.IsFileAt path l ∧
      s.locate (d.put l text.toUTF8) file = (path, some (Config.parse text)) :=
  firstReadable_put text (getLast?_candidates s file) hl

/-- What is found in a file is read from a text. -/
theorem exists_parse_of_locate {c : Config} (h : (s.locate d file).2 = some c) :
    ∃ text, Config.parse text = c := by
  unfold locate at h
  generalize s.candidates file = paths at h
  induction paths generalizing file with
  | nil => cases h
  | cons path paths ih =>
    rw [firstReadable] at h
    cases hr : readConfig? d path with
    | none =>
      rw [hr] at h
      exact ih h
    | some c' =>
      rw [hr] at h
      obtain rfl : c' = c := by simpa using h
      obtain ⟨text, -, ht⟩ := readConfig?_eq_some_iff.mp hr
      exact ⟨text, ht⟩

theorem toOption_load (s : SettingStore) (d : Disk) (file : String) :
    (s.load d file).toOption = (s.locate d file).2 := by
  unfold load
  split <;> simp_all [Except.toOption]

theorem load_eq_ok_iff {c : Config} : s.load d file = .ok c ↔ (s.locate d file).2 = some c := by
  unfold load
  split <;> simp_all

/-- The settings of a file after one was written, read from the file as it was. -/
def written (s : SettingStore) (d : Disk) (t : Triplet) (value : String) : Config :=
  ((s.locate d t.file).2.getD {}).set t.heading t.key value

theorem write_of_malformed {e : Error} (h : Triplet.parse name = .error e) :
    s.write d name value = (.error e, d) := by
  simp only [write, h]

/-- Where a name has the right form, the text of a whole file is written. -/
theorem write_of_parse {t : Triplet} (ht : Triplet.parse name = .ok t) :
    s.write d name value =
      (d.write (s.locate d t.file).1 (s.written d t value).render.toUTF8).map
        (·.mapError fun e => .io e.message) id := by
  simp only [write, ht, written]
  rfl

theorem setText_eq_ok_iff_write :
    s.setText d name value = .ok d' ↔ s.write d name value = (.ok (), d') := by
  unfold setText
  rcases s.write d name value with ⟨e | u, d₁⟩ <;> simp

/-- A setting is written if its name has the right form, its path names a place for a file in a
directory, and the system takes all of the text. -/
theorem setText_eq_ok_iff {t : Triplet} (ht : Triplet.parse name = .ok t) :
    s.setText d name value = .ok d' ↔
      ∃ l, d.IsFileAt (s.locate d t.file).1 l ∧ d.isDirectory (Disk.above l) = true ∧
        d.stops l (s.written d t value).render.toUTF8 = none ∧
        d' = d.put l (s.written d t value).render.toUTF8 := by
  have hw : s.write d name value = (.ok (), d') ↔
      d.write (s.locate d t.file).1 (s.written d t value).render.toUTF8 = (.ok (), d') := by
    rw [write_of_parse ht]
    rcases d.write (s.locate d t.file).1 (s.written d t value).render.toUTF8 with ⟨e | u, d₁⟩
    · simp [Except.mapError]
    · simp [Except.mapError]
  rw [setText_eq_ok_iff_write, hw, Disk.write_eq_ok_iff]
  simp only [Disk.create_eq_ok_iff, and_assoc]

/-- The settings that were written are read back. -/
theorem load_setText {t : Triplet} (ht : Triplet.parse name = .ok t)
    (h : s.setText d name value = .ok d') :
    s.load d' t.file = .ok (Config.parse (s.written d t value).render) := by
  obtain ⟨l, hl, -, -, rfl⟩ := (setText_eq_ok_iff ht).mp h
  obtain ⟨path, -, hp⟩ := locate_put (s.written d t value).render hl
  rw [load_eq_ok_iff, hp]

/-- Settings are found alike, whether or not the system takes what is written. -/
theorem locate_withStops (s : SettingStore) (d : Disk) (stops : Stops) (file : String) :
    s.locate (d.withStops stops) file = s.locate d file := by
  unfold locate
  generalize s.candidates file = paths
  induction paths generalizing file with
  | nil => rfl
  | cons path paths ih =>
    have hr : readConfig? (d.withStops stops) path = readConfig? d path := by
      rw [readConfig?, readConfig?, Disk.readText_withStops]
    rw [firstReadable, firstReadable, hr, ih]

/-- Where one text can be written as a setting, a file can hold any text. -/
theorem exists_disk {t : Triplet} (ht : Triplet.parse name = .ok t)
    (h : s.setText d name value = .ok d') (text : String) :
    ∃ d₁ d₂, s.load d₁ t.file = .ok (Config.parse text) ∧ s.setText d₁ name value = .ok d₂ := by
  obtain ⟨l, hl, ha, -⟩ := (setText_eq_ok_iff ht).mp h
  obtain ⟨path, hp, hf⟩ := locate_put text hl
  have hopen : (d.put l text.toUTF8).create path = .ok l :=
    Disk.create_eq_ok_iff.mpr ⟨Disk.isFileAt_put_iff.mpr hp, ha⟩
  -- A disk that takes one file may stop at a longer one, so another system serves it here.
  rw [← locate_withStops s _ fun _ _ => none] at hf
  rw [← Disk.create_withStops _ fun _ _ => none] at hopen
  obtain ⟨hl₁, ha₁⟩ := Disk.create_eq_ok_iff.mp hopen
  refine ⟨_, _, ?_, (setText_eq_ok_iff ht).mpr ⟨l, ?_, ha₁, rfl, rfl⟩⟩
  · rw [load_eq_ok_iff, hf]
  · rwa [hf]

/-- Whatever the disk, a file keeps the values of all its other settings when one is written,
exactly if the setting is contained. -/
theorem setText_frame_iff {t : Triplet} (ht : Triplet.parse name = .ok t)
    (h : s.setText d name value = .ok d') :
    (∀ d₁ d₂, s.setText d₁ name value = .ok d₂ → ∃ c, s.load d₂ t.file = .ok c ∧
      ∀ heading key, Config.addresses t.heading t.key heading key = false →
        c.get? heading key = (s.load d₁ t.file).toOption.bind (·.get? heading key)) ↔
      Config.Contained t.heading t.key value := by
  rw [Config.contained_iff]
  constructor
  · intro hf text heading key hn
    obtain ⟨d₁, d₂, hl, hs⟩ := exists_disk ht h text
    obtain ⟨c, hc, hget⟩ := hf d₁ d₂ hs
    rw [load_setText ht hs, Except.ok.injEq] at hc
    have := hget heading key hn
    rw [← hc, hl, written, load_eq_ok_iff.mp hl] at this
    exact this
  · intro hc d₁ d₂ hs
    refine ⟨_, load_setText ht hs, fun heading key hn => ?_⟩
    rw [toOption_load, written]
    cases hl : (s.locate d₁ t.file).2 with
    | none => exact hc "" heading key hn
    | some c =>
      obtain ⟨text, rfl⟩ := exists_parse_of_locate hl
      exact hc text heading key hn

/-- A line feed in a value brings a second setting into the file. -/
theorem setText_injects :
    ¬ ∀ d₁ d₂, setText {} d₁ "a|A|k" "1\ny=2" = .ok d₂ → ∃ c, load {} d₂ "a" = .ok c ∧
      ∀ heading key, Config.addresses "A" "k" heading key = false →
        c.get? heading key = (load {} d₁ "a").toOption.bind (·.get? heading key) := by
  have ht : Triplet.parse "a|A|k" = .ok ⟨"a", "A", "k"⟩ := by decide +kernel
  have hp : (locate {} {} "a").1 = "a" := by cbv
  have hl : ({} : Disk).IsFileAt (locate {} {} "a").1 ["a"] := by
    rw [hp]
    exact ⟨by cbv, by decide, by cbv⟩
  have h : setText {} {} "a|A|k" "1\ny=2" = .ok (({} : Disk).put ["a"] _) :=
    (setText_eq_ok_iff ht).mpr ⟨["a"], hl, by decide, rfl, rfl⟩
  rw [setText_frame_iff ht h]
  intro hc
  have := hc.setting "A" "y" (by decide +kernel)
  exact absurd this (by decide +kernel)

/-! ## Files that were there before -/

theorem snd_firstReadable {last : String} {paths : List String} (hp : paths.getLast? = some last) :
    (firstReadable d last paths).2 = readConfig? d (firstReadable d last paths).1 := by
  induction paths with
  | nil => cases hp
  | cons path paths ih =>
    rw [firstReadable]
    cases hr : readConfig? d path with
    | some c => exact hr.symm
    | none =>
      cases paths with
      | nil =>
        obtain rfl : path = last := by simpa using hp
        exact hr.symm
      | cons next paths => exact ih (by simpa using hp)

/-- The settings that were located are those of the path that was located. -/
theorem snd_locate (s : SettingStore) (d : Disk) (file : String) :
    (s.locate d file).2 = readConfig? d (s.locate d file).1 :=
  snd_firstReadable (getLast?_candidates s file)

/-- Without a base directory a file is looked for as it is named. -/
theorem fst_locate_of_base_none (h : s.base = none) : (s.locate d file).1 = file := by
  simp only [locate, candidates, h, firstReadable]
  split <;> rfl

/-- Settings are read from a file exactly if it is a text. -/
theorem readConfig?_of_contents {path : String} {l : Location} {old : ByteArray}
    (hl : d.IsFileAt path l) (hold : d.contents? l = some old) :
    (∀ text : String, old = text.toUTF8 → readConfig? d path = some (Config.parse text)) ∧
      (¬ old.IsValidUTF8 → readConfig? d path = none) := by
  constructor
  · rintro text rfl
    exact readConfig?_eq_some_iff.mpr ⟨text, Disk.readText_eq_ok_iff.mpr ⟨l, hl, hold⟩, rfl⟩
  · intro hv
    by_contra hne
    obtain ⟨c, hc⟩ := Option.ne_none_iff_exists'.mp hne
    obtain ⟨text, ht, -⟩ := readConfig?_eq_some_iff.mp hc
    obtain ⟨l', hl', hc'⟩ := Disk.readText_eq_ok_iff.mp ht
    obtain rfl : l = l' := Except.ok.inj (hl.resolve.symm.trans hl'.resolve)
    obtain rfl : old = text.toUTF8 := Option.some.inj (hold.symm.trans hc')
    exact hv text.isValidUTF8

/-- The file at a location held a text, and then holds its settings with one more value set. -/
def Amends (d d' : Disk) (l : Location) (heading key value : String) : Prop :=
  ∃ text : String, d.contents? l = some text.toUTF8 ∧
    d'.contents? l = some ((Config.parse text).set heading key value).render.toUTF8

/-- A write amends a file that was there before exactly if the file was a text. Any other file gave
no settings, and the one that is written is all that is left in it. -/
theorem setText_amends_iff {t : Triplet} (ht : Triplet.parse name = .ok t)
    (h : s.setText d name value = .ok d') {l : Location}
    (hl : d.resolve (s.locate d t.file).1 = .ok l) {old : ByteArray}
    (hold : d.contents? l = some old) :
    (Amends d d' l t.heading t.key value ↔ old.IsValidUTF8) ∧
      (¬ old.IsValidUTF8 → (s.locate d t.file).2 = none ∧
        d'.contents? l = some (Config.set {} t.heading t.key value).render.toUTF8) := by
  obtain ⟨l', hf, -, -, rfl⟩ := (setText_eq_ok_iff ht).mp h
  obtain rfl : l' = l := Except.ok.inj (hf.resolve.symm.trans hl)
  have hnew := Disk.contents?_put_self d l' (s.written d t value).render.toUTF8
  obtain ⟨htext, hother⟩ := readConfig?_of_contents hf hold
  rw [← snd_locate] at htext hother
  refine ⟨⟨?_, ?_⟩, ?_⟩
  · rintro ⟨text, hc, -⟩
    obtain rfl : old = text.toUTF8 := Option.some.inj (hold.symm.trans hc)
    exact text.isValidUTF8
  · intro hv
    obtain ⟨text, rfl⟩ := Disk.isValidUTF8_iff.mp hv
    refine ⟨text, hold, ?_⟩
    rw [hnew, written, htext text rfl, Option.getD_some]
  · intro hv
    refine ⟨hother hv, ?_⟩
    rw [hnew, written, hother hv, Option.getD_none]

/-- A file with one byte that is no text loses the setting that it held. -/
theorem setText_amends_iff_not_text :
    let old : ByteArray := "[A]\nx=1\n;".toUTF8.push 0xE9
    let d : Disk := ({} : Disk).put ["a"] old
    ∃ d', setText {} d "a|A|k" "1" = .ok d' ∧ ¬ Amends d d' ["a"] "A" "k" "1" ∧
      d'.contents? ["a"] = some "[A]\nk=1\n".toUTF8 := by
  intro old d
  have ht : Triplet.parse "a|A|k" = .ok ⟨"a", "A", "k"⟩ := by decide +kernel
  have hl : d.IsFileAt (locate {} d "a").1 ["a"] := by
    rw [fst_locate_of_base_none rfl]
    exact ⟨by cbv, by decide, by cbv⟩
  have h : setText {} d "a|A|k" "1" = .ok (d.put ["a"] _) :=
    (setText_eq_ok_iff ht).mpr ⟨["a"], hl, by decide, rfl, rfl⟩
  have hold : d.contents? ["a"] = some old := Disk.contents?_put_self _ _ _
  have hv : ¬ old.IsValidUTF8 := by decide +kernel
  obtain ⟨hiff, hlost⟩ := setText_amends_iff ht h hl.resolve hold
  have hr : (Config.set {} "A" "k" "1").render = "[A]\nk=1\n" := by decide +kernel
  refine ⟨_, h, fun ha => hv (hiff.mp ha), ?_⟩
  rw [(hlost hv).2, hr]

end SettingStore

end StackScript
