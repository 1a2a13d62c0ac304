import StackScript.Proofs.Config.Contained

/-!
# The lines of a written file

* `lines_render`: the lines of a file that was written, each of which `IsWritten`.
* `place` gives each line the section that it belongs to (`place_sectionLines`), and `otherLines`
  leaves out the lines that give a setting its value.
* `filter_place_set`, `otherLines_set`: setting a value changes no other line, and `touch` leaves
  all lines of a file (`renderedLines_isPrefix_touch`).
-/

namespace StackScript

open Text

namespace Config

/-! ## Written lines -/

/-- A heading as it is written, without its line feed. -/
def headingChars (name : String) : List Char := '[' :: name.toList ++ [']']

/-- A setting as it is written, without its line feed. -/
def settingChars (key value : String) : List Char := key.toList ++ '=' :: value.toList

/-- A line as it is written. It holds no comment, and no blank that is not part of a name or a
value. -/
inductive IsWritten : List Char → Prop
  | blank : IsWritten []
  | heading {name : String} (h : IsHeading name) : IsWritten (headingChars name)
  | setting {key value : String} (hk : IsKey key) (hv : IsValue value) :
      IsWritten (settingChars key value)

theorem IsWritten.comment_not_mem {l : List Char} (h : IsWritten l) : ';' ∉ l := by
  cases h with
  | blank => exact List.not_mem_nil
  | heading h => simp [headingChars, h.comment]
  | setting hk hv => simp [settingChars, hk.comment, hv.comment]

/-- The lines of a section. -/
def sectionLines (e : String × NameMap String) : List (List Char) :=
  headingChars e.1 :: e.2.entries.map fun x => settingChars x.1 x.2

/-- The lines of sections, with an empty one before each but the first. -/
def sectionsLines : List (String × NameMap String) → List (List Char)
  | [] => []
  | e :: es => sectionLines e ++ es.flatMap fun e => [] :: sectionLines e

/-- The lines of a file as they are written. -/
def renderedLines (c : Config) : List (List Char) := sectionsLines c.sections.entries

theorem lines_flatMap_settingLine {es : List (String × String)}
    (hs : ∀ x ∈ es, IsKey x.1 ∧ IsValue x.2) :
    lines (es.flatMap fun x => settingLine x.1 x.2) = es.map fun x => settingChars x.1 x.2 := by
  induction es with
  | nil => rfl
  | cons x es ih =>
    obtain ⟨⟨hk, hv⟩, hes⟩ := List.forall_mem_cons.mp hs
    rw [List.flatMap_cons, lines_append_of_isEnded (isEnded_settingLine x.1 x.2),
      lines_settingLine hk hv, ih hes]
    rfl

theorem lines_sectionText {e : String × NameMap String} (hh : IsHeading e.1)
    (hs : ∀ x ∈ e.2.entries, IsKey x.1 ∧ IsValue x.2) :
    lines (sectionText e.1 e.2) = sectionLines e := by
  rw [sectionText, lines_append_of_isEnded (isEnded_headingLine e.1), lines_headingLine hh,
    lines_flatMap_settingLine hs]
  rfl

theorem lines_intercalate {es : List (String × NameMap String)} (hc : IsClean ⟨⟨es⟩⟩) :
    lines (List.intercalate ['\n'] (es.map fun e => sectionText e.1 e.2)) =
      sectionsLines es := by
  induction es with
  | nil => rfl
  | cons e es ih =>
    obtain ⟨hh, hhs⟩ := List.forall_mem_cons.mp hc.heading
    obtain ⟨hx, hxs⟩ := List.forall_mem_cons.mp hc.setting
    have he := lines_sectionText hh hx
    cases es with
    | nil => simpa [List.intercalate, sectionsLines] using he
    | cons e' es =>
      have hnewline (cs : List Char) : lines (['\n'] ++ cs) = [] :: lines cs := by
        rw [List.singleton_append, lines]
      have hes := ih ⟨hhs, hxs⟩
      rw [List.map_cons] at hes
      rw [List.map_cons, List.map_cons, List.intercalate_cons_cons, List.append_assoc,
        lines_append_of_isEnded (isEnded_sectionText e.1 e.2), he, hnewline, hes]
      rfl

/-- The lines of a file that is written. -/
theorem lines_render {c : Config} (hc : c.IsClean) : lines c.render.toList = c.renderedLines := by
  rw [render, String.toList_ofList]
  exact lines_intercalate hc

theorem mem_sectionsLines {es : List (String × NameMap String)} {l : List Char}
    (hl : l ∈ sectionsLines es) : l = [] ∨ ∃ e ∈ es, l ∈ sectionLines e := by
  cases es with
  | nil => cases hl
  | cons e es =>
    rcases List.mem_append.mp hl with hl | hl
    · exact .inr ⟨e, List.mem_cons_self, hl⟩
    · obtain ⟨e', he', hl⟩ := List.mem_flatMap.mp hl
      exact (List.mem_cons.mp hl).imp_right fun hl => ⟨e', List.mem_cons_of_mem e he', hl⟩

theorem isWritten_of_mem_renderedLines {c : Config} (hc : c.IsClean) {l : List Char}
    (hl : l ∈ c.renderedLines) : IsWritten l := by
  rcases mem_sectionsLines hl with rfl | ⟨e, he, hl⟩
  · exact .blank
  rcases List.mem_cons.mp hl with rfl | hl
  · exact .heading (hc.heading e he)
  · obtain ⟨x, hx, rfl⟩ := List.mem_map.mp hl
    obtain ⟨hk, hv⟩ := hc.setting e he x hx
    exact .setting hk hv

/-! ## Lines and their sections -/

/-- The section that is open after a line. -/
def Line.opens (current : String) : Line → String
  | .heading name => name
  | .setting .. | .other => current

/-- Lines with the sections that they belong to, the first one coming in an open section. A heading
belongs to the section that it begins. -/
def place (current : String) : List (List Char) → List (String × List Char)
  | [] => []
  | l :: ls =>
    let current := (Line.ofChars l).opens current
    (current, l) :: place current ls

@[simp] theorem map_snd_place (current : String) (ls : List (List Char)) :
    (place current ls).map Prod.snd = ls := by
  induction ls generalizing current with
  | nil => rfl
  | cons l ls ih => rw [place, List.map_cons, ih]

/-- The section that is open after lines. -/
def openAfter (current : String) (ls : List (List Char)) : String :=
  ls.foldl (fun current l => (Line.ofChars l).opens current) current

theorem place_append (current : String) (ks ls : List (List Char)) :
    place current (ks ++ ls) = place current ks ++ place (openAfter current ks) ls := by
  induction ks generalizing current with
  | nil => rfl
  | cons k ks ih =>
    rw [List.cons_append, place, place, ih]
    rfl

theorem place_headingChars {name : String} (h : IsHeading name) (current : String)
    (ls : List (List Char)) :
    place current (headingChars name :: ls) = (name, headingChars name) :: place name ls := by
  rw [place, headingChars, Line.ofChars_heading h]
  rfl

theorem place_settings {es : List (String × String)} (hk : ∀ x ∈ es, IsKey x.1)
    (current : String) (ls : List (List Char)) :
    place current (es.map (fun x => settingChars x.1 x.2) ++ ls) =
      es.map (fun x => (current, settingChars x.1 x.2)) ++ place current ls := by
  induction es with
  | nil => rfl
  | cons x es ih =>
    obtain ⟨hx, hes⟩ := List.forall_mem_cons.mp hk
    have hopens : (Line.ofChars (settingChars x.1 x.2)).opens current = current := by
      rw [settingChars, Line.ofChars_setting hx]
      rfl
    rw [List.map_cons, List.map_cons, List.cons_append, List.cons_append, place, hopens, ih hes]

/-- The lines of a section belong to it, whatever was open before. -/
theorem place_sectionLines {e : String × NameMap String} (hh : IsHeading e.1)
    (hk : ∀ x ∈ e.2.entries, IsKey x.1) (current : String) (ls : List (List Char)) :
    place current (sectionLines e ++ ls) =
      (e.1, headingChars e.1) :: e.2.entries.map (fun x => (e.1, settingChars x.1 x.2)) ++
        place e.1 ls := by
  rw [sectionLines, List.cons_append, place_headingChars hh, place_settings hk, List.cons_append]

/-- The key in the line of a setting. -/
def Line.key? : Line → Option String
  | .setting key _ => some key
  | .heading _ | .other => none

/-- Whether a line gives a setting its value. -/
def sets (heading key : String) (p : String × List Char) : Bool :=
  (Line.ofChars p.2).key?.any (addresses heading key p.1)

/-- The lines of a file but for those that give a setting its value. -/
def otherLines (heading key : String) (ls : List (List Char)) : List (List Char) :=
  ((place firstHeading ls).filter fun p => !sets heading key p).map Prod.snd

theorem otherLines_sublist (heading key : String) (ls : List (List Char)) :
    (otherLines heading key ls).Sublist ls := by
  have h := (List.filter_sublist (l := place firstHeading ls)
    (p := fun p => !sets heading key p)).map Prod.snd
  rwa [map_snd_place] at h

/-! ## Setting a value -/

/-- A section that need not have settings is there, in its spelling, before it gets one. -/
theorem exists_entries_touch (c : Config) (heading key value : String) :
    ∃ pre post name settings, equalFold name heading = true ∧
      (c.touch heading).sections.entries = pre ++ (name, settings) :: post ∧
      (c.set heading key value).sections.entries =
        pre ++ (name, settings.insert key value) :: post := by
  unfold touch set NameMap.update
  rcases NameMap.updateEntries_cases heading (·.getD {}) c.sections.entries with
    ⟨pre, e, post, hes, he, hpre, hu⟩ | ⟨hes, hu⟩
  · refine ⟨pre, post, e.1, e.2, he, hu, ?_⟩
    rw [hes, NameMap.updateEntries_append _ hpre he]
    rfl
  · refine ⟨c.sections.entries, [], heading, {}, equalFold_refl heading, hu, ?_⟩
    rw [NameMap.updateEntries_of_forall _ hes]
    rfl

/-- What stands around the lines of a section does not depend on its settings. -/
theorem exists_sectionsLines_append (pre post : List (String × NameMap String)) (name : String) :
    ∃ before after, ∀ settings, sectionsLines (pre ++ (name, settings) :: post) =
      before ++ (sectionLines (name, settings) ++ after) := by
  cases pre with
  | nil => exact ⟨[], post.flatMap fun e => [] :: sectionLines e, fun settings => rfl⟩
  | cons e pre =>
    refine ⟨sectionLines e ++ (pre.flatMap fun e => [] :: sectionLines e) ++ [[]],
      post.flatMap fun e => [] :: sectionLines e, fun settings => ?_⟩
    simp [sectionsLines]

/-- What a predicate on lines keeps of a file does not depend on the value of a setting, if it drops
the lines of that setting. -/
theorem filter_place_set {c : Config} (hc : c.IsClean) {heading key : String} (value : String)
    (hh : IsHeading heading) (hk : IsKey key) {p : String × List Char → Bool}
    (hp : ∀ name key' value', equalFold heading name = true → equalFold key key' = true →
      IsKey key' → p (name, settingChars key' value') = false) (current : String) :
    (place current (c.set heading key value).renderedLines).filter p =
      (place current (c.touch heading).renderedLines).filter p := by
  obtain ⟨pre, post, name, settings, hname, htouch, hset⟩ :=
    exists_entries_touch c heading key value
  obtain ⟨before, after, haround⟩ := exists_sectionsLines_append pre post name
  have hmem : (name, settings) ∈ (c.touch heading).sections.entries := by simp [htouch]
  have hclean := hc.touch hh
  have hkeys : ∀ x ∈ settings.entries, IsKey x.1 := fun x hx =>
    (hclean.setting _ hmem x hx).1
  have hn : IsHeading name := hclean.heading _ hmem
  have hkeys' : ∀ x ∈ (settings.insert key value).entries, IsKey x.1 :=
    NameMap.forall_mem_update hkeys hk hkeys
  have hname' : equalFold heading name = true := by rwa [equalFold_comm]
  -- Only the line of the setting is changed or added, and that line is dropped.
  have hsettings : ((settings.insert key value).entries.map
        fun x => (name, settingChars x.1 x.2)).filter p =
      (settings.entries.map fun x => (name, settingChars x.1 x.2)).filter p := by
    rcases NameMap.updateEntries_cases key (fun _ => value) settings.entries with
      ⟨pre, x, post, hes, hx, -, hu⟩ | ⟨-, hu⟩
    · have hx' : equalFold key x.1 = true := by rwa [equalFold_comm]
      have hxk : IsKey x.1 := hkeys x (by simp [hes])
      rw [NameMap.insert, NameMap.update, hu, hes]
      simp [List.filter_append, hp name x.1 _ hname' hx' hxk]
    · rw [NameMap.insert, NameMap.update, hu]
      simp [List.filter_append, hp name key _ hname' (equalFold_refl key) hk]
  rw [renderedLines, renderedLines, hset, htouch, haround, haround, place_append _ before,
    place_append _ before,
    place_sectionLines (e := (name, settings.insert key value)) hn hkeys',
    place_sectionLines (e := (name, settings)) hn hkeys]
  simp only [List.filter_append, List.cons_append, List.filter_cons, hsettings]

theorem sets_settingChars {key' : String} (hk : IsKey key') (heading key name value : String) :
    sets heading key (name, settingChars key' value) = addresses heading key name key' := by
  rw [sets, settingChars, Line.ofChars_setting hk]
  rfl

/-- Setting a value changes no other line of a file that was written. -/
theorem otherLines_set {c : Config} (hc : c.IsClean) {heading key : String} (value : String)
    (hh : IsHeading heading) (hk : IsKey key) :
    otherLines heading key (c.set heading key value).renderedLines =
      otherLines heading key (c.touch heading).renderedLines := by
  unfold otherLines
  rw [filter_place_set hc value hh hk fun name key' value' hname hkey hk' => ?_]
  rw [sets_settingChars hk', addresses, hname, hkey]
  rfl

/-! ## A new section -/

theorem place_isPrefix {ks ls : List (List Char)} (h : ks <+: ls) (current : String) :
    place current ks <+: place current ls := by
  obtain ⟨ls, rfl⟩ := h
  rw [place_append]
  exact List.prefix_append _ _

theorem sectionsLines_isPrefix (es : List (String × NameMap String))
    (e : String × NameMap String) : sectionsLines es <+: sectionsLines (es ++ [e]) := by
  cases es with
  | nil => exact List.nil_prefix
  | cons e' es =>
    rw [List.cons_append, sectionsLines, sectionsLines, List.flatMap_append, ← List.append_assoc]
    exact List.prefix_append _ _

/-- A section that is there stays as it is. -/
theorem touch_of_mem {c : Config} {heading : String} (h : heading ∈ c.headings) :
    c.touch heading = c := by
  obtain ⟨e, he, rfl⟩ := List.mem_map.mp h
  unfold touch NameMap.update
  rcases NameMap.updateEntries_cases e.1 (·.getD {}) c.sections.entries with
    ⟨pre, x, post, hes, -, -, hu⟩ | ⟨hes, -⟩
  · rw [hu, Option.getD_some, ← hes]
  · have hne := hes e he
    rw [equalFold_refl] at hne
    cases hne

theorem renderedLines_isPrefix_touch (c : Config) (heading : String) :
    c.renderedLines <+: (c.touch heading).renderedLines := by
  unfold renderedLines touch NameMap.update
  rcases NameMap.updateEntries_cases heading (·.getD {}) c.sections.entries with
    ⟨pre, e, post, hes, -, -, hu⟩ | ⟨-, hu⟩
  · rw [hu, Option.getD_some, ← hes]
  · rw [hu]
    exact sectionsLines_isPrefix _ _

end Config

end StackScript
