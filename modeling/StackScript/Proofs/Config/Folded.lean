import StackScript.Proofs.Config.Overlay
import StackScript.Proofs.Config.RoundTrip

/-!
# Settings under lower-case names

Settings are a map of maps, ordered and up to the case of letters.

* `FoldedMap` is a map that is searched by the lower-case forms of its names and lists the names as
  spelled. What comes from a map from names goes on doing so when it is updated by these forms
  (`FoldedMap.update_ofNames`) and finds the same (`FoldedMap.get?_ofNames`).
* `FoldedConfig` holds settings in such maps. `BuiltAlike` ties it to settings that came about by
  the same texts and values: it is what these settings fold to (`BuiltAlike.eq_ofConfig`).
* `Lists`: an entry with a value stands in the settings. What is looked up is what is listed
  (`get?_eq_some_iff_lists`).
* `Sets`: one setting was given a value, and all else is as before, at its place and in its
  spelling. `isBuilt_ordered` is the statement for all settings that can come about.
-/

namespace StackScript

open Text

/-! ## Maps searched by lower-case names -/

/-- An ordered map that is searched by the lower-case forms of its names. Each entry has such a
form, the name as it was spelled first, and a value. -/
structure FoldedMap (α : Type) where
  entries : List (String × String × α) := []

namespace FoldedMap

variable {α β : Type}

/-- The value under the lower-case form of a name. -/
def get? (m : FoldedMap α) (name : String) : Option α :=
  (m.entries.find? fun e => e.1 == fold name).map fun e => e.2.2

/-- The names as spelled, in order. -/
def names (m : FoldedMap α) : List String := m.entries.map fun e => e.2.1

/-- The entries with the value under a form changed, or with a new entry at the end. -/
def updateEntries (form name : String) (f : Option α → α) :
    List (String × String × α) → List (String × String × α)
  | [] => [(form, name, f none)]
  | e :: es =>
    if e.1 == form then (e.1, e.2.1, f (some e.2.2)) :: es
    else e :: updateEntries form name f es

/-- Changes the value under the lower-case form of a name; a new form comes last. -/
def update (m : FoldedMap α) (name : String) (f : Option α → α) : FoldedMap α :=
  ⟨updateEntries (fold name) name f m.entries⟩

/-- A map from names, each entry under the lower-case form of its name. -/
def ofNames (g : α → β) (m : NameMap α) : FoldedMap β :=
  ⟨m.entries.map fun e => (fold e.1, e.1, g e.2)⟩

/-- Names that are equal up to case are found by one form. -/
theorem get?_ofNames (g : α → β) (m : NameMap α) (name : String) :
    (ofNames g m).get? name = (m.get? name).map g := by
  rw [get?, ofNames, List.find?_map, NameMap.get?, NameMap.find?, Option.map_map, Option.map_map]
  rfl

theorem names_ofNames (g : α → β) (m : NameMap α) : (ofNames g m).names = m.keys := by
  rw [names, ofNames, List.map_map]
  rfl

/-- An update by the form of a name is the update by the name. -/
theorem update_ofNames (g : α → β) (m : NameMap α) (name : String) {f : Option α → α}
    {f' : Option β → β} (h : ∀ v, f' (v.map g) = g (f v)) :
    (ofNames g m).update name f' = ofNames g (m.update name f) := by
  have hentries : ∀ es : List (String × α),
      updateEntries (fold name) name f' (es.map fun e => (fold e.1, e.1, g e.2)) =
        (NameMap.updateEntries name f es).map fun e => (fold e.1, e.1, g e.2) := by
    intro es
    induction es with
    | nil => simp [updateEntries, NameMap.updateEntries, ← h]
    | cons e es ih =>
      by_cases he : equalFold e.1 name = true
      · have hform : fold e.1 = fold name := equalFold_iff.mp he
        simp [updateEntries, NameMap.updateEntries, he, hform, ← h]
      · have hform : ¬ fold e.1 = fold name := mt equalFold_iff.mpr he
        simp [updateEntries, NameMap.updateEntries, he, hform, ih]
  exact congrArg FoldedMap.mk (hentries m.entries)

end FoldedMap

namespace Config

/-! ## Settings in folded maps -/

/-- Settings under the lower-case forms of headings and keys. -/
structure FoldedConfig where
  sections : FoldedMap (FoldedMap String) := {}

namespace FoldedConfig

/-- The value of a setting. -/
def get? (c : FoldedConfig) (heading key : String) : Option String :=
  (c.sections.get? heading).bind (·.get? key)

/-- The headings as spelled, in order. -/
def headings (c : FoldedConfig) : List String := c.sections.names

/-- The keys of a section as spelled, in order; none if there is no such section. -/
def keys (c : FoldedConfig) (heading : String) : List String :=
  ((c.sections.get? heading).getD {}).names

/-- A section that need not have settings. -/
def touch (c : FoldedConfig) (heading : String) : FoldedConfig :=
  ⟨c.sections.update heading (·.getD {})⟩

/-- Gives a setting a value. -/
def set (c : FoldedConfig) (heading key value : String) : FoldedConfig :=
  ⟨c.sections.update heading fun settings => (settings.getD {}).update key fun _ => value⟩

/-- Reads one more line in the section begun last. -/
def add (r : String × FoldedConfig) : Line → String × FoldedConfig
  | .heading name => (name, r.2.touch name)
  | .setting key value => (r.1, r.2.set r.1 key value)
  | .other => r

/-- The settings that a text holds. -/
def parse (text : String) : FoldedConfig :=
  ((lines text.toList).foldl (fun r l => add r (.ofChars l)) (firstHeading, {})).2

/-- Settings, each under the lower-case forms of its heading and its key. -/
def ofConfig (c : Config) : FoldedConfig := ⟨.ofNames (.ofNames id) c.sections⟩

theorem get?_ofConfig (c : Config) (heading key : String) :
    (ofConfig c).get? heading key = c.get? heading key := by
  rw [get?, ofConfig, FoldedMap.get?_ofNames, Config.get?]
  cases c.sections.get? heading with
  | none => rfl
  | some settings =>
    rw [Option.map_some, Option.bind_some, Option.bind_some, FoldedMap.get?_ofNames, Option.map_id]
    rfl

theorem headings_ofConfig (c : Config) : (ofConfig c).headings = c.headings :=
  FoldedMap.names_ofNames _ c.sections

theorem keys_ofConfig (c : Config) (heading : String) :
    (ofConfig c).keys heading = c.keys heading := by
  rw [keys, ofConfig, FoldedMap.get?_ofNames, Config.keys]
  cases c.sections.get? heading with
  | none => rfl
  | some settings => exact FoldedMap.names_ofNames id settings

theorem touch_ofConfig (c : Config) (heading : String) :
    (ofConfig c).touch heading = ofConfig (c.touch heading) := by
  refine congrArg FoldedConfig.mk (FoldedMap.update_ofNames _ _ _ fun settings => ?_)
  cases settings <;> rfl

theorem set_ofConfig (c : Config) (heading key value : String) :
    (ofConfig c).set heading key value = ofConfig (c.set heading key value) := by
  refine congrArg FoldedConfig.mk (FoldedMap.update_ofNames _ _ _ fun settings => ?_)
  have hset (m : NameMap String) :
      (FoldedMap.ofNames id m).update key (fun _ => value) = .ofNames id (m.insert key value) :=
    FoldedMap.update_ofNames id m key fun _ => rfl
  cases settings with
  | none => exact hset {}
  | some settings => exact hset settings

theorem add_ofConfig (r : Reading) (l : Line) :
    add (r.current, ofConfig r.config) l = ((r.add l).current, ofConfig (r.add l).config) := by
  cases l with
  | heading name => exact congrArg (Prod.mk name) (touch_ofConfig _ _)
  | setting key value => exact congrArg (Prod.mk r.current) (set_ofConfig _ _ _ _)
  | other => rfl

/-- A text is read alike under lower-case names. -/
theorem parse_eq_ofConfig (text : String) : parse text = ofConfig (Config.parse text) := by
  have hlines : ∀ (ls : List (List Char)) (r : Reading),
      ls.foldl (fun r l => add r (.ofChars l)) (r.current, ofConfig r.config) =
        let r := ls.foldl (fun (r : Reading) l => r.add (.ofChars l)) r
        (r.current, ofConfig r.config) := by
    intro ls
    induction ls with
    | nil => exact fun _ => rfl
    | cons l ls ih =>
      intro r
      rw [List.foldl_cons, add_ofConfig]
      exact ih (r.add (.ofChars l))
  exact congrArg Prod.snd (hlines (lines text.toList) {})

end FoldedConfig

/-! ## Settings that can come about -/

/-- Settings in folded maps and settings that came about alike: a text was read, and then one
setting after the other was given a value. -/
inductive BuiltAlike : FoldedConfig → Config → Prop
  | parse (text : String) : BuiltAlike (.parse text) (parse text)
  | set {f : FoldedConfig} {c : Config} (h : BuiltAlike f c) (heading key value : String) :
      BuiltAlike (f.set heading key value) (c.set heading key value)

/-- Every lower-case form stays that of the name beside it. -/
theorem BuiltAlike.eq_ofConfig {f : FoldedConfig} {c : Config} (h : BuiltAlike f c) :
    f = .ofConfig c := by
  induction h with
  | parse text => exact FoldedConfig.parse_eq_ofConfig text
  | set _ heading key value ih => rw [ih, FoldedConfig.set_ofConfig]

theorem IsBuilt.exists_builtAlike {c : Config} (h : IsBuilt c) : ∃ f, BuiltAlike f c := by
  induction h with
  | parse text => exact ⟨_, .parse text⟩
  | set _ heading key value ih =>
    obtain ⟨f, hf⟩ := ih
    exact ⟨_, hf.set heading key value⟩

/-! ## What is listed and what is set -/

/-- An entry with a value stands under a heading and a key, in some spelling of them. -/
def Lists (c : Config) (heading key value : String) : Prop :=
  ∃ e ∈ c.sections.entries, equalFold e.1 heading = true ∧
    ∃ x ∈ e.2.entries, equalFold x.1 key = true ∧ x.2 = value

/-- What is looked up is what is listed. -/
theorem get?_eq_some_iff_lists {c : Config} (hc : c.IsDistinct) {heading key value : String} :
    c.get? heading key = some value ↔ c.Lists heading key value := by
  rw [get?, Option.bind_eq_some_iff]
  constructor
  · rintro ⟨settings, hs, hk⟩
    obtain ⟨e, he, hh, rfl⟩ := NameMap.mem_of_get?_eq_some hs
    exact ⟨e, he, hh, NameMap.mem_of_get?_eq_some hk⟩
  · rintro ⟨e, he, hh, hx⟩
    refine ⟨e.2, (NameMap.get?_eq_some_iff hc.heading).mpr ⟨e, he, hh, rfl⟩, ?_⟩
    exact (NameMap.get?_eq_some_iff (hc.setting e he)).mpr hx

/-- One setting was given a value and nothing else was changed. -/
structure Sets (c : Config) (heading key value : String) (c' : Config) : Prop where
  /-- In every spelling the setting has the value; any other setting has the one it had. -/
  get? : ∀ heading' key', c'.get? heading' key' =
    if equalFold heading heading' && equalFold key key' then some value
    else c.get? heading' key'
  /-- A heading that is new up to case comes last. -/
  headings : c'.headings =
    if c.headings.any (equalFold · heading) then c.headings else c.headings ++ [heading]
  /-- A key that is new up to case comes last in its section. -/
  keys : ∀ heading', equalFold heading heading' = true → c'.keys heading' =
    if (c.keys heading').any (equalFold · key) then c.keys heading' else c.keys heading' ++ [key]
  /-- Other sections are found as they were. -/
  others : ∀ heading', equalFold heading heading' = false →
    c'.sections.get? heading' = c.sections.get? heading'
  /-- What is listed keeps its place and its spelling, and but for the setting its value. -/
  stays : ∀ (i : ℕ) e, c.sections.entries[i]? = some e →
    ∃ settings, c'.sections.entries[i]? = some (e.1, settings) ∧
      (equalFold e.1 heading = false → settings = e.2) ∧
      ∀ (j : ℕ) x, e.2.entries[j]? = some x → settings.entries[j]? =
        some (x.1, if equalFold e.1 heading && equalFold x.1 key then value else x.2)

theorem sets_set {c : Config} (hc : c.IsDistinct) (heading key value : String) :
    Sets c heading key value (c.set heading key value) where
  get? heading' key' := by
    split
    · rename_i h
      obtain ⟨hh, hk⟩ := Bool.and_eq_true_iff.mp h
      exact get?_set_self c value hh hk
    · rename_i h
      exact get?_set_of_ne c value (Bool.eq_false_iff.mpr h)
  headings := headings_set c heading key value
  keys heading' h := by
    rw [keys_set, if_pos h]
    rfl
  others heading' h := NameMap.get?_update_of_ne _ _ h
  stays i e he := by
    refine ⟨_, NameMap.getElem?_entries_update hc.heading heading _ he, ?_, ?_⟩
    · intro hn
      rw [hn]
      rfl
    · intro j x hx
      cases hh : equalFold e.1 heading with
      | true =>
        exact NameMap.getElem?_entries_update (hc.setting e (List.mem_of_getElem? he)) key _ hx
      | false => exact hx

/-- Settings that were read, or come from such settings or from none by giving values to any texts,
are a map of maps, ordered and up to the case of letters. Held under lower-case names they are found
and listed alike, no two names are equal up to case, and what is looked up is what is listed. One
setting more that is given a value leaves all else as it was. -/
theorem isBuilt_ordered : IsBuilt {} ∧ ∀ c : Config, IsBuilt c →
    (∃ f, BuiltAlike f c ∧ (∀ heading key, f.get? heading key = c.get? heading key) ∧
      f.headings = c.headings ∧ ∀ heading, f.keys heading = c.keys heading) ∧
      c.IsDistinct ∧
      (∀ heading key value, c.get? heading key = some value ↔ c.Lists heading key value) ∧
      ∀ heading key value, Sets c heading key value (c.set heading key value) := by
  refine ⟨.parse "", fun c h => ?_⟩
  obtain ⟨f, hf⟩ := h.exists_builtAlike
  have hfold : f = .ofConfig c := hf.eq_ofConfig
  have hd : c.IsDistinct := h.isDistinct
  refine ⟨⟨f, hf, ?_⟩, hd, fun _ _ _ => get?_eq_some_iff_lists hd, sets_set hd⟩
  rw [hfold]
  exact ⟨FoldedConfig.get?_ofConfig c, FoldedConfig.headings_ofConfig c,
    FoldedConfig.keys_ofConfig c⟩

/-- A value in another spelling, in settings that hold a value which no line could. -/
theorem isBuilt_ordered_letters :
    let c := (parse "[Main]\nValue = 12\n[B]\nk=1").set "b" "new" ";\n"
    let c' := c.set "MAIN" "value" "5"
    IsBuilt c ∧ c'.headings = ["Main", "B"] ∧ c'.keys "main" = ["Value"] ∧
      c'.get? "main" "VALUE" = some "5" ∧ c'.get? "B" "new" = some ";\n" ∧
      c'.sections.entries[1]? = some ("B", ⟨[("k", "1"), ("new", ";\n")]⟩) := by
  intro c c'
  have hb : IsBuilt c := .set (.parse _) _ _ _
  have hc : c = ⟨⟨[("Main", ⟨[("Value", "12")]⟩), ("B", ⟨[("k", "1"), ("new", ";\n")]⟩)]⟩⟩ := by
    show (parse "[Main]\nValue = 12\n[B]\nk=1").set "b" "new" ";\n" = _
    cbv
  obtain ⟨-, -, hlists, hsets⟩ := isBuilt_ordered.2 c hb
  have hset : Sets c "MAIN" "value" "5" c' := hsets _ _ _
  have hM : equalFold "Main" "MAIN" = true := by
    simp [equalFold_iff, ← String.toList_inj, toList_fold]
  have hm : equalFold "MAIN" "main" = true := by
    simp [equalFold_iff, ← String.toList_inj, toList_fold]
  have hv : equalFold "value" "VALUE" = true := by
    simp [equalFold_iff, ← String.toList_inj, toList_fold]
  have hV : equalFold "Value" "value" = true := by
    simp [equalFold_iff, ← String.toList_inj, toList_fold]
  have hB : equalFold "B" "MAIN" = false := by decide +kernel
  have hB' : equalFold "MAIN" "B" = false := by decide +kernel
  have hnew : c.get? "B" "new" = some ";\n" := by
    refine (hlists _ _ _).mpr ⟨("B", ⟨[("k", "1"), ("new", ";\n")]⟩), by simp [hc],
      equalFold_refl _, ("new", ";\n"), by simp, equalFold_refl _, rfl⟩
  refine ⟨hb, ?_, ?_, ?_, ?_, ?_⟩
  · rw [hset.headings, hc]
    simp [headings, NameMap.keys, hM]
  · rw [hset.keys _ hm, keys, NameMap.get?_congr _ (by rw [equalFold_comm]; exact hm), hc]
    simp [NameMap.get?, NameMap.find?, NameMap.keys, hM, hV]
  · rw [hset.get?, hm, hv]
    rfl
  · rw [hset.get?, hB']
    exact hnew
  · obtain ⟨settings, hs, hsame, -⟩ := hset.stays 1 _ (by rw [hc]; rfl)
    rw [hs, hsame hB]

end Config

end StackScript
