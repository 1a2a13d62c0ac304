import StackScript.Proofs.Config.Clean

/-!
# Reading in steps

* `Reading.read` goes on reading with a text; texts that end in line feeds are read one after the
  other (`read_append`).
* `read_headingLine` and `read_settingLine` read lines that were written, `read_sectionText` and
  `read_render` whole sections and files.
* `get?_read`: what a text sets lies over what was set before.
* `Agree p`: two readings that go on alike on the settings for which `p` holds.
-/

namespace StackScript

open Text

namespace Config

namespace Reading

/-- Goes on reading with a text. -/
def read (r : Reading) (cs : List Char) : Reading := ((lines cs).map Line.ofChars).foldl add r

theorem read_append {a : List Char} (h : IsEnded a) (r : Reading) (b : List Char) :
    r.read (a ++ b) = (r.read a).read b := by
  simp only [read, lines_append_of_isEnded h, List.map_append, List.foldl_append]

theorem read_cons_newline (r : Reading) (cs : List Char) : r.read ('\n' :: cs) = r.read cs := by
  have h : lines ('\n' :: cs) = [] :: lines cs := by rw [lines]
  rw [read, h]
  rfl

/-- What a text sets is clean, and the section that it ends in has a name that can be written. -/
theorem isClean_read {r : Reading} (hr : IsHeading r.current) (hc : r.config.IsClean)
    (cs : List Char) : IsHeading (r.read cs).current ∧ (r.read cs).config.IsClean := by
  have hl : ∀ l ∈ (lines cs).map Line.ofChars, l.IsClean := by
    intro l hl
    obtain ⟨l, hm, rfl⟩ := List.mem_map.mp hl
    exact Line.isClean_ofChars (newline_not_mem_of_mem_lines hm)
  unfold read
  generalize (lines cs).map Line.ofChars = ls at hl ⊢
  induction ls generalizing r with
  | nil => exact ⟨hr, hc⟩
  | cons l ls ih =>
    obtain ⟨hl, hls⟩ := List.forall_mem_cons.mp hl
    obtain ⟨hr', hc'⟩ := isClean_add hr hc hl
    exact ih hr' hc' hls

theorem isDistinct_read {r : Reading} (hc : r.config.IsDistinct) (cs : List Char) :
    (r.read cs).config.IsDistinct := by
  unfold read
  induction (lines cs).map Line.ofChars generalizing r with
  | nil => exact hc
  | cons l ls ih => exact ih (isDistinct_add hc l)

end Reading

theorem parse_eq_read (text : String) : parse text = (Reading.read {} text.toList).config := by
  rw [parse, Reading.read, List.foldl_map]

/-- All texts that are read could be written. -/
theorem isClean_parse (text : String) : (parse text).IsClean := by
  rw [parse_eq_read]
  exact (Reading.isClean_read isHeading_firstHeading isClean_empty _).2

theorem isDistinct_parse (text : String) : (parse text).IsDistinct := by
  rw [parse_eq_read]
  exact Reading.isDistinct_read isDistinct_empty _

/-! ## Written lines -/

theorem isEnded_headingLine (name : String) : IsEnded (headingLine name) :=
  .inr ⟨'[' :: name.toList ++ [']'], by simp [headingLine]⟩

theorem isEnded_settingLine (key value : String) : IsEnded (settingLine key value) :=
  .inr ⟨key.toList ++ '=' :: value.toList, rfl⟩

theorem lines_headingLine {name : String} (h : IsHeading name) :
    lines (headingLine name) = ['[' :: name.toList ++ [']']] := by
  have e : headingLine name = ('[' :: name.toList ++ [']']) ++ '\n' :: [] := by simp [headingLine]
  have hn : '\n' ∉ '[' :: name.toList ++ [']'] := by simp [h.newline]
  have hr : ('[' :: name.toList ++ [']']).getLast? ≠ some '\r' := by
    rw [List.getLast?_concat]
    decide
  rw [e, lines_append_newline [] hn hr, lines]

theorem lines_settingLine {key value : String} (hk : IsKey key) (hv : IsValue value) :
    lines (settingLine key value) = [key.toList ++ '=' :: value.toList] := by
  have e : settingLine key value = (key.toList ++ '=' :: value.toList) ++ '\n' :: [] := by
    simp [settingLine]
  have hn : '\n' ∉ key.toList ++ '=' :: value.toList := by simp [hk.newline, hv.newline]
  have hr : (key.toList ++ '=' :: value.toList).getLast? ≠ some '\r' := by
    intro h
    rw [List.getLast?_append, List.getLast?_cons] at h
    cases hl : value.toList.getLast? with
    | none => simp [hl] at h
    | some c =>
      obtain rfl : c = '\r' := by simpa [hl] using h
      have := (trim_eq_self_iff.mp hv.trimmed).2 _ hl
      exact absurd this (by decide)
  rw [e, lines_append_newline [] hn hr, lines]

theorem isEnded_sectionText (name : String) (settings : NameMap String) :
    IsEnded (sectionText name settings) :=
  (isEnded_headingLine name).append (isEnded_flatMap (fun _ => isEnded_settingLine _ _) _)

namespace Reading

theorem read_headingLine (r : Reading) {name : String} (h : IsHeading name) :
    r.read (headingLine name) = r.add (.heading name) := by
  rw [read, lines_headingLine h, List.map_singleton, Line.ofChars_heading h]
  rfl

/-- The line of a setting is read as a setting with a value that depends only on the value written,
and so are the lines after it, if there are line feeds in the value. -/
theorem exists_read_settingLine (value : String) :
    ∃ (first : String) (rest : List Line), ('\n' ∉ value.toList → rest = []) ∧
      ∀ {key : String}, IsKey key → ∀ r : Reading,
        r.read (settingLine key value) = rest.foldl add (r.add (.setting key first)) := by
  have hne : value.toList ++ ['\n'] ≠ [] := by simp
  obtain ⟨l, ls, hl⟩ := List.exists_cons_of_ne_nil (lines_ne_nil hne)
  refine ⟨String.ofList (trim (before ';' l)), ls.map Line.ofChars, fun h => ?_,
    fun {key} hk r => ?_⟩
  · obtain ⟨l', hl'⟩ := exists_lines_eq_singleton h
    rw [hl, List.cons.injEq] at hl'
    rw [hl'.2, List.map_nil]
  have e : settingLine key value = (key.toList ++ ['=']) ++ (value.toList ++ ['\n']) := by
    simp [settingLine]
  have hn : '\n' ∉ key.toList ++ ['='] := by simp [hk.newline]
  have hr : (key.toList ++ ['=']).getLast? ≠ some '\r' := by
    rw [List.getLast?_concat]
    decide
  rw [read, e, lines_append_of_not_mem hn hr hl, List.append_assoc, List.map_cons,
    List.singleton_append, Line.ofChars_setting hk, List.foldl_cons]

theorem read_settingLine (r : Reading) {key value : String} (hk : IsKey key) (hv : IsValue value) :
    r.read (settingLine key value) = r.add (.setting key value) := by
  rw [read, lines_settingLine hk hv, List.map_singleton, Line.ofChars_setting hk, hv.read]
  rfl

/-- Reads the lines of settings. -/
def readSettings (r : Reading) (es : List (String × String)) : Reading :=
  es.foldl (fun r e => r.read (settingLine e.1 e.2)) r

/-- Reads the lines of sections. -/
def readSections (r : Reading) (es : List (String × NameMap String)) : Reading :=
  es.foldl (fun r e => r.read (sectionText e.1 e.2)) r

@[simp] theorem readSettings_nil (r : Reading) : r.readSettings [] = r := rfl

@[simp] theorem readSections_nil (r : Reading) : r.readSections [] = r := rfl

theorem readSettings_cons (r : Reading) (e : String × String) (es : List (String × String)) :
    r.readSettings (e :: es) = (r.read (settingLine e.1 e.2)).readSettings es := rfl

theorem readSections_cons (r : Reading) (e : String × NameMap String)
    (es : List (String × NameMap String)) :
    r.readSections (e :: es) = (r.read (sectionText e.1 e.2)).readSections es := rfl

theorem readSettings_append (r : Reading) (es es' : List (String × String)) :
    r.readSettings (es ++ es') = (r.readSettings es).readSettings es' := List.foldl_append

theorem readSections_append (r : Reading) (es es' : List (String × NameMap String)) :
    r.readSections (es ++ es') = (r.readSections es).readSections es' := List.foldl_append

/-- The settings under a heading are read one after the other. -/
theorem read_sectionText (r : Reading) (name : String) (settings : NameMap String) :
    r.read (sectionText name settings) =
      (r.read (headingLine name)).readSettings settings.entries := by
  rw [sectionText, read_append (isEnded_headingLine name)]
  generalize r.read (headingLine name) = r
  induction settings.entries generalizing r with
  | nil => rfl
  | cons e es ih =>
    rw [List.flatMap_cons, read_append (isEnded_settingLine _ _), ih, readSettings_cons]

/-- The sections of a file are read one after the other. -/
theorem read_render (r : Reading) (c : Config) :
    r.read (render c).toList = r.readSections c.sections.entries := by
  rw [render, String.toList_ofList]
  induction c.sections.entries generalizing r with
  | nil => rfl
  | cons e es ih =>
    have he := isEnded_sectionText e.1 e.2
    cases es with
    | nil => simp [readSections_cons]
    | cons e' es =>
      have hi : List.intercalate ['\n'] ((e :: e' :: es).map fun e => sectionText e.1 e.2) =
          sectionText e.1 e.2 ++
            '\n' :: List.intercalate ['\n'] ((e' :: es).map fun e => sectionText e.1 e.2) := by
        simp [List.intercalate]
      rw [hi, read_append he, read_cons_newline, ih, ← readSections_cons]

end Reading

/-! ## Reading over settings -/

@[simp] theorem get?_empty (heading key : String) : get? {} heading key = none := rfl

/-- A section that need not have settings gives none a value. -/
theorem get?_touch (c : Config) (name heading key : String) :
    (c.touch name).get? heading key = c.get? heading key := by
  unfold get? touch
  cases h : equalFold name heading with
  | true =>
    rw [NameMap.get?_update_self _ _ h, NameMap.get?_congr _ h]
    cases c.sections.get? heading <;> rfl
  | false => rw [NameMap.get?_update_of_ne _ _ h]

namespace Reading

theorem get?_add (r : Reading) (l : Line) (heading key : String) :
    (r.add l).config.get? heading key =
      ((add ⟨r.current, {}⟩ l).config.get? heading key).or (r.config.get? heading key) := by
  cases l with
  | heading name => simp only [add, get?_touch, get?_empty, Option.none_or]
  | setting key' value =>
    simp only [add]
    cases h : equalFold r.current heading && equalFold key' key with
    | true =>
      obtain ⟨hh, hk⟩ := Bool.and_eq_true_iff.mp h
      rw [get?_set_self _ _ hh hk, get?_set_self _ _ hh hk, Option.some_or]
    | false => rw [get?_set_of_ne _ _ h, get?_set_of_ne _ _ h, get?_empty, Option.none_or]
  | other => simp only [add, get?_empty, Option.none_or]

theorem current_add (r r' : Reading) (l : Line) (h : r.current = r'.current) :
    (r.add l).current = (r'.add l).current := by
  cases l with
  | heading name => rfl
  | setting key value => exact h
  | other => exact h

/-- What lines set lies over what was set before. -/
theorem get?_foldl_add (ls : List Line) (r : Reading) (heading key : String) :
    (ls.foldl add r).config.get? heading key =
      ((ls.foldl add ⟨r.current, {}⟩).config.get? heading key).or (r.config.get? heading key) := by
  induction ls generalizing r with
  | nil => simp
  | cons l ls ih =>
    have hc : (r.add l).current = (add ⟨r.current, {}⟩ l).current := current_add _ _ l rfl
    rw [List.foldl_cons, List.foldl_cons, ih (r.add l), ih (add ⟨r.current, {}⟩ l), hc,
      get?_add r l, Option.or_assoc]

/-- What a text sets lies over what was set before. -/
theorem get?_read (r : Reading) (cs : List Char) (heading key : String) :
    (r.read cs).config.get? heading key =
      ((read ⟨r.current, {}⟩ cs).config.get? heading key).or (r.config.get? heading key) :=
  get?_foldl_add _ r heading key

/-! ## Readings that go on alike -/

/-- Two readings in one section, up to case, with the same settings as far as `p` holds. -/
structure Agree (p : String → String → Prop) (r r' : Reading) : Prop where
  current : equalFold r.current r'.current = true
  config : ∀ heading key, p heading key → r.config.get? heading key = r'.config.get? heading key

variable {p : String → String → Prop} {r r' : Reading}

theorem Agree.refl (r : Reading) : Agree p r r := ⟨equalFold_refl _, fun _ _ _ => rfl⟩

theorem agree_add_heading {name name' : String} (h : equalFold name name' = true)
    (hc : ∀ heading key, p heading key → r.config.get? heading key = r'.config.get? heading key) :
    Agree p (r.add (.heading name)) (r'.add (.heading name')) :=
  ⟨h, fun heading key hp => by simp only [add, get?_touch, hc heading key hp]⟩

theorem Agree.add_setting (h : Agree p r r') {key key' : String} (hk : equalFold key key' = true)
    (value : String) : Agree p (r.add (.setting key value)) (r'.add (.setting key' value)) where
  current := h.current
  config heading k hp := by
    have e : (equalFold r.current heading && equalFold key k) =
        (equalFold r'.current heading && equalFold key' k) := by
      simp only [equalFold, equalFold_iff.mp h.current, equalFold_iff.mp hk]
    simp only [add]
    cases hs : equalFold r.current heading && equalFold key k with
    | true =>
      obtain ⟨h₁, h₂⟩ := Bool.and_eq_true_iff.mp hs
      obtain ⟨h₁', h₂'⟩ := Bool.and_eq_true_iff.mp (e ▸ hs)
      rw [get?_set_self _ _ h₁ h₂, get?_set_self _ _ h₁' h₂']
    | false =>
      rw [get?_set_of_ne _ _ hs, get?_set_of_ne _ _ (e ▸ hs), h.config heading k hp]

theorem Agree.add (h : Agree p r r') (l : Line) : Agree p (r.add l) (r'.add l) := by
  cases l with
  | heading name => exact agree_add_heading (equalFold_refl name) h.config
  | setting key value => exact h.add_setting (equalFold_refl key) value
  | other => exact h

theorem Agree.foldl_add (h : Agree p r r') (ls : List Line) :
    Agree p (ls.foldl Reading.add r) (ls.foldl Reading.add r') := by
  induction ls generalizing r r' with
  | nil => exact h
  | cons l ls ih => exact ih (h.add l)

theorem Agree.read (h : Agree p r r') (cs : List Char) : Agree p (r.read cs) (r'.read cs) :=
  h.foldl_add _

theorem Agree.readSettings (h : Agree p r r') (es : List (String × String)) :
    Agree p (r.readSettings es) (r'.readSettings es) := by
  induction es generalizing r r' with
  | nil => exact h
  | cons e es ih => exact ih (h.read _)

theorem Agree.readSections (h : Agree p r r') (es : List (String × NameMap String)) :
    Agree p (r.readSections es) (r'.readSections es) := by
  induction es generalizing r r' with
  | nil => exact h
  | cons e es ih => exact ih (h.read _)

/-- Sections are read alike in whatever section the readings are: they begin with a heading. -/
theorem get?_readSections_congr {es : List (String × NameMap String)}
    (he : ∀ e ∈ es, IsHeading e.1)
    (hc : ∀ heading key, p heading key → r.config.get? heading key = r'.config.get? heading key)
    {heading key : String} (hp : p heading key) :
    (r.readSections es).config.get? heading key = (r'.readSections es).config.get? heading key := by
  cases es with
  | nil => exact hc heading key hp
  | cons e es =>
    have hh := he e List.mem_cons_self
    have ha : Agree p (r.add (.heading e.1)) (r'.add (.heading e.1)) :=
      agree_add_heading (equalFold_refl e.1) hc
    simp only [readSections_cons, read_sectionText, read_headingLine _ hh]
    exact ((ha.readSettings e.2.entries).readSections es).config heading key hp

end Reading

end Config

end StackScript
