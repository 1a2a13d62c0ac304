import StackScript.Proofs.Config.RoundTrip

/-!
# Settings that stay by themselves

A setting is written as a line, and a text with line feeds in it as several. `Contained` says of a
heading, a key and a value that the lines written for them give no value to anything else, and do
not draw the settings after them into another section.

`contained_iff`: this is what it takes for all other settings of every file to keep their values
when the setting is written and the file is read again.
-/

namespace StackScript

open Text

namespace Config

/-- The lines of a setting in a section of its own. -/
def entryText (heading key value : String) : List Char :=
  headingLine heading ++ settingLine key value

/-- What is read from the lines of a setting in a section of its own. -/
def entryReading (heading key value : String) : Reading :=
  Reading.read {} (entryText heading key value)

/-- Whether a heading and a key are those of a setting, in any spelling. -/
def addresses (heading key heading' key' : String) : Bool :=
  equalFold heading heading' && equalFold key key'

/-- The lines of a setting give no other setting a value. If a file can hold the setting, with
others after it, they end in the section in which they began. -/
structure Contained (heading key value : String) : Prop where
  setting : ∀ heading' key', ((entryReading heading key value).config.get? heading' key').isSome →
    addresses heading key heading' key' = true
  current : IsHeading heading → IsKey key →
    equalFold heading (entryReading heading key value).current = true

namespace Reading

/-- The lines of a setting are read alike for a key in another spelling. -/
theorem Agree.read_settingLine {p : String → String → Prop} {r r' : Reading} (h : Agree p r r')
    {key key' : String} (hk : IsKey key) (he : equalFold key key' = true) (value : String) :
    Agree p (r.read (settingLine key value)) (r'.read (settingLine key' value)) := by
  obtain ⟨first, rest, -, hr⟩ := exists_read_settingLine value
  rw [hr hk, hr (hk.congr he)]
  exact (h.add_setting he first).foldl_add rest

/-- A setting that is read has a value in the end. -/
theorem exists_get?_of_mem {ls : List Line} {key value : String} (h : .setting key value ∈ ls)
    (r : Reading) : ∃ heading, ((ls.foldl add r).config.get? heading key).isSome := by
  induction ls generalizing r with
  | nil => cases h
  | cons l ls ih =>
    rw [List.foldl_cons]
    rcases List.mem_cons.mp h with rfl | h
    · refine ⟨r.current, ?_⟩
      rw [get?_foldl_add, Option.isSome_or, Bool.or_eq_true]
      right
      simp only [add]
      rw [get?_set_self _ _ (equalFold_refl _) (equalFold_refl _)]
      rfl
    · exact ih h _

theorem get?_foldl_add_of_forall {ls : List Line} (h : ∀ key value, .setting key value ∉ ls)
    (r : Reading) (heading key : String) :
    (ls.foldl add r).config.get? heading key = r.config.get? heading key := by
  induction ls generalizing r with
  | nil => rfl
  | cons l ls ih =>
    rw [List.foldl_cons, ih fun k v hm => h k v (List.mem_cons_of_mem _ hm)]
    cases l with
    | heading name => exact get?_touch _ _ _ _
    | setting k v => exact absurd List.mem_cons_self (h k v)
    | other => rfl

/-- Clean settings are read under the heading that comes before them. -/
theorem current_readSettings {es : List (String × String)}
    (h : ∀ x ∈ es, IsKey x.1 ∧ IsValue x.2) (r : Reading) :
    (r.readSettings es).current = r.current := by
  induction es generalizing r with
  | nil => rfl
  | cons x es ih =>
    obtain ⟨⟨hk, hv⟩, hes⟩ := List.forall_mem_cons.mp h
    rw [readSettings_cons, ih hes, read_settingLine _ hk hv]
    rfl

end Reading

theorem entryReading_eq {heading : String} (h : IsHeading heading) (key value : String) :
    entryReading heading key value =
      (Reading.add {} (.heading heading)).read (settingLine key value) := by
  rw [entryReading, entryText, Reading.read_append (isEnded_headingLine heading),
    Reading.read_headingLine _ h]

/-! ## Contained settings -/

namespace Contained

variable {heading key value : String} (h : Contained heading key value)
include h

theorem get?_entryReading {heading' key' : String}
    (hn : addresses heading key heading' key' = false) :
    (entryReading heading key value).config.get? heading' key' = none := by
  cases hs : (entryReading heading key value).config.get? heading' key' with
  | none => rfl
  | some v =>
    have := h.setting heading' key' (by rw [hs]; rfl)
    rw [hn] at this
    cases this

/-- Under its heading, the lines of a setting leave the values of all others. -/
theorem get?_read_settingLine (hh : IsHeading heading) {r : Reading}
    (hr : equalFold heading r.current = true) {heading' key' : String}
    (hn : addresses heading key heading' key' = false) :
    (r.read (settingLine key value)).config.get? heading' key' = r.config.get? heading' key' := by
  have ha : Reading.Agree (fun _ _ => True) (Reading.add {} (.heading heading)) ⟨r.current, {}⟩ :=
    ⟨hr, fun _ _ _ => get?_touch _ _ _ _⟩
  have hc := (ha.read (settingLine key value)).config heading' key' trivial
  rw [← entryReading_eq hh, h.get?_entryReading hn] at hc
  rw [Reading.get?_read, ← hc, Option.none_or]

/-- Under a heading that cannot be written, nothing is set. -/
theorem not_mem_of_not_isHeading (hh : ¬ IsHeading heading) (k v : String) :
    .setting k v ∉ (lines (entryText heading key value)).map Line.ofChars := by
  intro hm
  obtain ⟨heading', hs⟩ := Reading.exists_get?_of_mem hm {}
  have hn := h.setting heading' k hs
  have hc := (Reading.isClean_read (r := {}) isHeading_firstHeading isClean_empty
    (entryText heading key value)).2
  obtain ⟨v', hv'⟩ := Option.isSome_iff_exists.mp hs
  obtain ⟨settings, hg, -⟩ := Option.bind_eq_some_iff.mp hv'
  obtain ⟨e, he, hf, -⟩ := NameMap.mem_of_get?_eq_some hg
  have hf' : equalFold heading' heading = true := by
    rw [equalFold_comm]
    exact (Bool.and_eq_true_iff.mp hn).1
  exact hh ((hc.heading e he).congr (equalFold_trans hf hf'))

/-- At the end of a file, the lines of a setting in a section of its own leave all others. -/
theorem get?_read_entryText (r : Reading) {heading' key' : String}
    (hn : addresses heading key heading' key' = false) :
    (r.read (entryText heading key value)).config.get? heading' key' =
      r.config.get? heading' key' := by
  by_cases hh : IsHeading heading
  · rw [entryText, Reading.read_append (isEnded_headingLine heading), Reading.read_headingLine _ hh,
      h.get?_read_settingLine hh (r := r.add (.heading heading)) (equalFold_refl heading) hn]
    exact get?_touch _ _ _ _
  · exact Reading.get?_foldl_add_of_forall (h.not_mem_of_not_isHeading hh) r heading' key'

/-- Another value for a setting that is there, the lines being read where its line was. -/
theorem agree_read_settingLine (hh : IsHeading heading) {key' old : String} (hk : IsKey key')
    (ho : IsValue old) (he : equalFold key' key = true) {r : Reading}
    (hr : equalFold heading r.current = true) :
    Reading.Agree (fun heading' key' => addresses heading key heading' key' = false)
      (r.read (settingLine key' value)) (r.read (settingLine key' old)) where
  current := by
    have ha : Reading.Agree (fun _ _ => False) r (Reading.add {} (.heading heading)) :=
      ⟨by rw [equalFold_comm]; exact hr, fun _ _ hf => hf.elim⟩
    have hc := (ha.read_settingLine hk he value).current
    rw [← entryReading_eq hh] at hc
    have hcur := h.current hh (hk.congr he)
    rw [equalFold_comm] at hcur
    rw [Reading.read_settingLine r hk ho]
    exact equalFold_trans (equalFold_trans hc hcur) hr
  config heading' k hn := by
    have hs := (Reading.Agree.refl (p := fun _ _ => True) r).read_settingLine hk he value
    have hn' : (equalFold r.current heading' && equalFold key' k) = false := by
      simp only [addresses, equalFold, equalFold_iff.mp hr, equalFold_iff.mp he] at hn ⊢
      exact hn
    rw [hs.config heading' k trivial, h.get?_read_settingLine hh hr hn,
      Reading.read_settingLine r hk ho, Reading.add, get?_set_of_ne _ _ hn']

/-- The settings under a heading are read alike with a contained setting among them, up to what
comes after the last. -/
theorem get?_readSettings_updateEntries (hh : IsHeading heading) {es : List (String × String)}
    (hes : ∀ x ∈ es, IsKey x.1 ∧ IsValue x.2) {r : Reading}
    (hr : equalFold heading r.current = true) {heading' k : String}
    (hn : addresses heading key heading' k = false) :
    (r.readSettings (NameMap.updateEntries key (fun _ => value) es)).config.get? heading' k =
      (r.readSettings es).config.get? heading' k := by
  rcases NameMap.updateEntries_cases key (fun _ => value) es with
    ⟨pre, e, post, rfl, he, -, hu⟩ | ⟨-, hu⟩
  · have hpre := fun x hx => hes x (List.mem_append_left _ hx)
    obtain ⟨hk, hv⟩ := hes e (by simp)
    rw [hu, Reading.readSettings_append, Reading.readSettings_append, Reading.readSettings_cons,
      Reading.readSettings_cons]
    have hc : equalFold heading (r.readSettings pre).current = true := by
      rw [Reading.current_readSettings hpre]
      exact hr
    exact ((h.agree_read_settingLine hh hk hv he hc).readSettings post).config heading' k hn
  · have hc : equalFold heading (r.readSettings es).current = true := by
      rw [Reading.current_readSettings hes]
      exact hr
    rw [hu, Reading.readSettings_append, Reading.readSettings_cons, Reading.readSettings_nil,
      h.get?_read_settingLine hh hc hn]

/-- All other settings keep their values when a contained one is set and written. -/
theorem get?_parse_render_set {c : Config} (hc : c.IsClean) (hd : c.IsDistinct)
    {heading' k : String} (hn : addresses heading key heading' k = false) :
    (parse (render (c.set heading key value))).get? heading' k = c.get? heading' k := by
  have hbase := config_readSections hc hd
  rw [parse_eq_read, Reading.read_render]
  unfold Config.set NameMap.update
  rcases NameMap.updateEntries_cases heading (fun s => (s.getD {}).insert key value)
    c.sections.entries with ⟨pre, e, post, hes, he, -, hu⟩ | ⟨-, hu⟩
  · have hin : e ∈ c.sections.entries := by rw [hes]; simp
    have hhe := hc.heading e hin
    have hh : IsHeading heading := hhe.congr he
    rw [hu, Reading.readSections_append, Reading.readSections_cons, Reading.read_sectionText,
      Reading.read_headingLine _ hhe]
    rw [hes, Reading.readSections_append, Reading.readSections_cons, Reading.read_sectionText,
      Reading.read_headingLine _ hhe] at hbase
    generalize hr : (Reading.readSections {} pre).add (.heading e.1) = r at hbase ⊢
    have hcur : equalFold heading r.current = true := by
      rw [← hr, equalFold_comm]
      exact he
    have hset : ∀ h' k', addresses heading key h' k' = false →
        (r.readSettings (NameMap.updateEntries key (fun _ => value) e.2.entries)).config.get?
            h' k' =
          (r.readSettings e.2.entries).config.get? h' k' := fun _ _ hn =>
      h.get?_readSettings_updateEntries hh (hc.setting e hin) hcur hn
    have hpost : ∀ x ∈ post, IsHeading x.1 := fun x hx =>
      hc.heading x (by rw [hes]; exact List.mem_append_right _ (List.mem_cons_of_mem _ hx))
    rw [← hbase]
    exact Reading.get?_readSections_congr
      (p := fun heading' k => addresses heading key heading' k = false) hpost hset hn
  · rw [hu, Reading.readSections_append]
    show ((Reading.readSections {} c.sections.entries).read
      (sectionText heading ⟨[(key, value)]⟩)).config.get? heading' k = _
    have hs : sectionText heading ⟨[(key, value)]⟩ = entryText heading key value := by
      simp [sectionText, entryText]
    rw [hs, h.get?_read_entryText _ hn, hbase]

end Contained

/-- A value on one line is contained under every heading and key that can be written. -/
theorem contained_of_newline_not_mem {heading key value : String} (hh : IsHeading heading)
    (hk : IsKey key) (hv : '\n' ∉ value.toList) : Contained heading key value := by
  obtain ⟨first, rest, hn, hr⟩ := Reading.exists_read_settingLine value
  have he : entryReading heading key value =
      (Reading.add {} (.heading heading)).add (.setting key first) := by
    rw [entryReading_eq hh, hr hk, hn hv, List.foldl_nil]
  constructor
  · intro heading' key' hs
    by_contra h
    have hn' : addresses heading key heading' key' = false := by simpa using h
    rw [he] at hs
    simp only [Reading.add] at hs
    rw [get?_set_of_ne _ _ hn', get?_touch] at hs
    cases hs
  · intro _ _
    rw [he]
    exact equalFold_refl heading

/-! ## Settings that are not contained -/

theorem render_set_empty (heading key value : String) :
    render (Config.set {} heading key value) = String.ofList (entryText heading key value) := by
  simp [render, Config.set, NameMap.update, NameMap.updateEntries, NameMap.insert, sectionText,
    entryText, List.intercalate]

theorem isValue_empty : IsValue "" := ⟨by decide, by decide, by decide⟩

/-- A key with a letter after it is another key. -/
theorem IsKey.append_x {key : String} (h : IsKey key) :
    IsKey (key ++ "x") ∧ equalFold key (key ++ "x") = false := by
  have e : (key ++ "x").toList = key.toList ++ ['x'] := by simp
  refine ⟨⟨?_, ?_, ?_, ?_, ?_, ?_⟩, ?_⟩
  · simp [e]
  · refine trim_eq_self_iff.mpr ⟨fun c hc => ?_, fun c hc => ?_⟩
    · rw [e, List.head?_append_of_ne_nil _ h.ne_nil] at hc
      exact (trim_eq_self_iff.mp h.trimmed).1 c hc
    · rw [e, List.getLast?_concat, Option.some.injEq] at hc
      rw [← hc]
      rfl
  · simp [e, h.newline]
  · simp [e, h.comment]
  · simp [e, h.equals]
  · rw [e, List.head?_append_of_ne_nil _ h.ne_nil]
    exact h.bracket
  · by_contra hf
    have hl := congrArg (fun s => s.toList.length) (equalFold_iff.mp (by simpa using hf))
    simp [toList_fold, e] at hl

/-- A file with a setting and another one after it. -/
def pair (heading key key' value : String) : Config :=
  ⟨⟨[(heading, ⟨[(key, value), (key', "")]⟩)]⟩⟩

theorem pair_eq_set {key key' : String} (heading value : String)
    (h : equalFold key key' = false) :
    pair heading key key' value = (Config.set {} heading key value).set heading key' "" := by
  simp [Config.set, pair, NameMap.update, NameMap.updateEntries, NameMap.insert, h]

theorem set_pair (heading key key' value value' : String) :
    (pair heading key key' value).set heading key value' = pair heading key key' value' := by
  simp [Config.set, pair, NameMap.update, NameMap.updateEntries, NameMap.insert]

theorem parse_render_pair {heading key key' value : String} (hh : IsHeading heading)
    (hk : IsKey key) (hk' : IsKey key') (hv : IsValue value) (h : equalFold key key' = false) :
    parse (render (pair heading key key' value)) = pair heading key key' value := by
  rw [pair_eq_set heading value h]
  exact parse_render ((isClean_empty.set hh hk hv).set hh hk' isValue_empty)
    ((isDistinct_empty.set heading key value).set heading key' "")

/-- A pair has no settings under other headings. -/
theorem get?_pair_of_ne {heading heading' key key' : String} (value k : String)
    (hn : equalFold key key' = false) (h : equalFold heading heading' = false) :
    (pair heading key key' value).get? heading' k = none := by
  have hs (k' : String) : (equalFold heading heading' && equalFold k' k) = false := by
    rw [h, Bool.false_and]
  rw [pair_eq_set heading value hn, get?_set_of_ne _ _ (hs key'), get?_set_of_ne _ _ (hs key),
    get?_empty]

theorem render_pair (heading key key' value : String) :
    render (pair heading key key' value) =
      String.ofList (entryText heading key value ++ settingLine key' "") := by
  simp [render, pair, sectionText, entryText, List.intercalate]

/-- Lines that end in another section draw the next setting into it. -/
theorem get?_parse_render_pair {heading key key' : String} (value : String) (hk' : IsKey key') :
    (parse (render (pair heading key key' value))).get?
      (entryReading heading key value).current key' = some "" := by
  have he : IsEnded (entryText heading key value) :=
    (isEnded_headingLine heading).append (isEnded_settingLine key value)
  rw [parse_eq_read, render_pair, String.toList_ofList, Reading.read_append he,
    Reading.read_settingLine _ hk' isValue_empty]
  exact get?_set_self _ _ (equalFold_refl _) (equalFold_refl _)

/-- The other settings of every file keep their values when a setting is written, exactly if the
setting is contained. -/
theorem contained_iff {heading key value : String} :
    Contained heading key value ↔ ∀ (text heading' key' : String),
      addresses heading key heading' key' = false →
        (parse (render ((parse text).set heading key value))).get? heading' key' =
          (parse text).get? heading' key' := by
  constructor
  · intro h text heading' key' hn
    exact h.get?_parse_render_set (isClean_parse text) (isDistinct_parse text) hn
  · intro h
    constructor
    · intro heading' key' hs
      by_contra hn
      have hget := h "" heading' key' (by simpa using hn)
      have he : parse "" = {} := rfl
      rw [he, render_set_empty, get?_empty, parse_eq_read, String.toList_ofList] at hget
      rw [entryReading, hget] at hs
      cases hs
    · intro hh hk
      by_contra hc
      rw [Bool.not_eq_true] at hc
      -- The setting after the one that is written ends up where the lines have led.
      obtain ⟨hk', hne⟩ := hk.append_x
      have ha : addresses heading key (entryReading heading key value).current
          (key ++ "x") = false := by
        rw [addresses, hne, Bool.and_false]
      have hget := h (render (pair heading key (key ++ "x") "")) _ _ ha
      rw [parse_render_pair hh hk hk' isValue_empty hne, set_pair, get?_parse_render_pair value hk',
        get?_pair_of_ne _ _ hne hc] at hget
      cases hget

end Config

end StackScript
