import StackScript.Proofs.Config.Lines

/-!
# Tidy texts

A setting is written by reading the whole file and writing it anew, so that a write first tidies the
file: what the reader passes over is lost, and the rest takes its written form and place.

* `IsTidy`: the lines of a text are among those of what is written of it. So they are together with
  their sections (`place_sublist_of_isTidy`), and none is a comment (`IsTidy.comment_not_mem`).
* `place_sublist`: lines keep their sections when others are left out, if no heading is.
* `exists_headings_parse`: which sections a text has.
* `forall_keepsOthers_iff`: every write to a text keeps all of its other lines exactly if the text
  is tidy.
-/

namespace StackScript

open Text

namespace Config

/-- The text that is left of a text when a setting is written to it. -/
def rewritten (text heading key value : String) : String :=
  render ((parse text).set heading key value)

/-- All lines of a text but for those that give a setting its value are among the lines of another
text, in their order. -/
def KeepsOthers (heading key old new : String) : Prop :=
  (otherLines heading key (lines old.toList)).Sublist (lines new.toList)

/-- The lines of the text are among those of what is written of it, in their order. -/
def IsTidy (text : String) : Prop :=
  (lines text.toList).Sublist (lines (parse text).render.toList)

instance (heading key old new : String) : Decidable (KeepsOthers heading key old new) :=
  inferInstanceAs (Decidable (List.Sublist _ _))

instance (text : String) : Decidable (IsTidy text) :=
  inferInstanceAs (Decidable (List.Sublist _ _))

/-- A text that is written is tidy. -/
theorem isTidy_render {c : Config} (hc : c.IsClean) (hd : c.IsDistinct) : IsTidy c.render := by
  rw [IsTidy, parse_render hc hd]

theorem isTidy_rewritten (text : String) {heading key value : String} (hh : IsHeading heading)
    (hk : IsKey key) (hv : IsValue value) : IsTidy (rewritten text heading key value) :=
  isTidy_render ((isClean_parse text).set hh hk hv) ((isDistinct_parse text).set heading key value)

theorem IsTidy.isWritten {text : String} (h : IsTidy text) {l : List Char}
    (hl : l ∈ lines text.toList) : IsWritten l := by
  have hc := isClean_parse text
  rw [IsTidy, lines_render hc] at h
  exact isWritten_of_mem_renderedLines hc (h.mem hl)

/-- A text with a comment is not tidy. -/
theorem IsTidy.comment_not_mem {text : String} (h : IsTidy text) {l : List Char}
    (hl : l ∈ lines text.toList) : ';' ∉ l :=
  (h.isWritten hl).comment_not_mem

/-! ## Headings -/

/-- The name in a heading. -/
def Line.name? : Line → Option String
  | .heading name => some name
  | .setting .. | .other => none

theorem Line.opens_of_name?_eq_none {l : Line} (h : l.name? = none) (current : String) :
    l.opens current = current := by
  cases l with
  | heading name => cases h
  | setting key value => rfl
  | other => rfl

/-- The names in the headings among lines. -/
def names (ls : List (List Char)) : List String := (ls.map Line.ofChars).filterMap Line.name?

theorem names_append (ks ls : List (List Char)) : names (ks ++ ls) = names ks ++ names ls := by
  rw [names, List.map_append, List.filterMap_append, names, names]

theorem names_headingChars {name : String} (h : IsHeading name) (ls : List (List Char)) :
    names (headingChars name :: ls) = name :: names ls := by
  rw [names, List.map_cons, headingChars, Line.ofChars_heading h]
  rfl

theorem names_sectionLines {e : String × NameMap String} (hh : IsHeading e.1)
    (hk : ∀ x ∈ e.2.entries, IsKey x.1) : names (sectionLines e) = [e.1] := by
  rw [sectionLines, names_headingChars hh, List.cons.injEq]
  refine ⟨rfl, List.filterMap_eq_nil_iff.mpr fun l hl => ?_⟩
  obtain ⟨cs, hcs, rfl⟩ := List.mem_map.mp hl
  obtain ⟨x, hx, rfl⟩ := List.mem_map.mp hcs
  rw [settingChars, Line.ofChars_setting (hk x hx)]
  rfl

/-- The headings of a file that is written are those of its sections. -/
theorem names_renderedLines {c : Config} (hc : c.IsClean) : names c.renderedLines = c.headings := by
  have he : ∀ e ∈ c.sections.entries, names (sectionLines e) = [e.1] := fun e he =>
    names_sectionLines (hc.heading e he) fun x hx => (hc.setting e he x hx).1
  unfold renderedLines headings NameMap.keys
  cases hes : c.sections.entries with
  | nil => rfl
  | cons e es =>
    rw [hes] at he
    obtain ⟨he, hes⟩ := List.forall_mem_cons.mp he
    rw [sectionsLines, names_append, he, List.map_cons, List.singleton_append, List.cons.injEq]
    refine ⟨rfl, ?_⟩
    clear * - hes
    induction es with
    | nil => rfl
    | cons e es ih =>
      obtain ⟨he, hes⟩ := List.forall_mem_cons.mp hes
      have hblank (ls : List (List Char)) : names ([] :: ls) = names ls := rfl
      rw [List.flatMap_cons, List.cons_append, hblank, names_append, he, ih hes,
        List.map_cons, List.singleton_append]

theorem IsDistinct.nodup_headings {c : Config} (hc : c.IsDistinct) : c.headings.Nodup := by
  refine List.pairwise_map.mpr (hc.heading.imp fun {a b} hab e => ?_)
  rw [e, equalFold_refl] at hab
  cases hab

theorem names_cons (l : List Char) (ls : List (List Char)) :
    names (l :: ls) = (Line.ofChars l).name?.toList ++ names ls := by
  unfold names
  cases hl : (Line.ofChars l).name? <;> simp [hl]

theorem exists_renderedLines_eq_cons {c : Config} {name : String} {named : List String}
    (h : c.headings = name :: named) : ∃ rest, c.renderedLines = headingChars name :: rest := by
  obtain ⟨e, es, hes, rfl, -⟩ := List.map_eq_cons_iff.mp h
  refine ⟨e.2.entries.map (fun x => settingChars x.1 x.2) ++
    es.flatMap fun e => [] :: sectionLines e, ?_⟩
  rw [renderedLines, hes]
  rfl

/-- If no heading is left out of some lines, none of those that are left changes its section. -/
theorem place_sublist {ls rs : List (List Char)} (h : ls.Sublist rs) (hd : (names rs).Nodup)
    (hn : ∀ name ∈ names rs, name ∈ names ls) (current : String) :
    (place current ls).Sublist (place current rs) := by
  induction h generalizing current with
  | slnil => exact .slnil
  | @cons ls rs l h ih =>
    rw [names_cons] at hd hn
    cases hl : (Line.ofChars l).name? with
    | none =>
      rw [hl] at hd hn
      rw [place, Line.opens_of_name?_eq_none hl]
      exact .cons _ (ih hd hn current)
    | some name =>
      -- A heading that is left out would have to come again.
      rw [hl] at hd hn
      have hls : name ∈ names ls := hn name List.mem_cons_self
      have hrs : name ∈ names rs := ((h.map Line.ofChars).filterMap Line.name?).mem hls
      exact absurd hrs (List.nodup_cons.mp hd).1
  | @cons_cons ls rs l h ih =>
    rw [names_cons] at hd
    refine .cons_cons _ (ih hd.of_append_right (fun name hrs => ?_) _)
    have hname := hn name (by rw [names_cons]; exact List.mem_append_right _ hrs)
    rw [names_cons] at hname
    refine (List.mem_append.mp hname).resolve_left fun hl => ?_
    exact List.disjoint_of_nodup_append hd hl hrs

/-- A line read in a section that is there adds no section but its own. -/
theorem Reading.exists_headings_add {r : Reading}
    (h : r.config.headings.any (equalFold · r.current) = true) (l : Line) :
    ∃ added, (r.add l).config.headings = r.config.headings ++ added ∧
      (∀ name ∈ added, l.name? = some name) ∧
        (r.add l).config.headings.any (equalFold · (r.add l).current) = true := by
  cases l with
  | heading name =>
    simp only [add, headings_touch, NameMap.addName]
    by_cases ha : r.config.headings.any (equalFold · name) = true
    · rw [if_pos ha]
      exact ⟨[], (List.append_nil _).symm, by simp, ha⟩
    · rw [if_neg ha]
      exact ⟨[name], rfl, by simp [Line.name?], by simp⟩
  | setting key value =>
    simp only [add, headings_set, NameMap.addName, if_pos h]
    exact ⟨[], (List.append_nil _).symm, by simp, h⟩
  | other => exact ⟨[], (List.append_nil _).symm, by simp, h⟩

theorem Reading.exists_headings_foldl_add {r : Reading}
    (h : r.config.headings.any (equalFold · r.current) = true) (ls : List Line) :
    ∃ added, (ls.foldl add r).config.headings = r.config.headings ++ added ∧
      ∀ name ∈ added, name ∈ ls.filterMap Line.name? := by
  induction ls generalizing r with
  | nil => exact ⟨[], (List.append_nil _).symm, by simp⟩
  | cons l ls ih =>
    obtain ⟨added, he, hadded, hany⟩ := exists_headings_add h l
    obtain ⟨more, hmore, hls⟩ := ih hany
    refine ⟨added ++ more, by rw [List.foldl_cons, hmore, he, List.append_assoc], ?_⟩
    intro name hname
    rcases List.mem_append.mp hname with hname | hname
    · exact List.mem_filterMap.mpr ⟨l, List.mem_cons_self, hadded name hname⟩
    · obtain ⟨l', hl', hsome⟩ := List.mem_filterMap.mp (hls name hname)
      exact List.mem_filterMap.mpr ⟨l', List.mem_cons_of_mem _ hl', hsome⟩

/-- All sections of a file are named in headings, but for one that settings before the first heading
may have begun. -/
theorem exists_headings_parse (text : String) :
    ∃ named, ((parse text).headings = named ∨ (parse text).headings = firstHeading :: named) ∧
      ∀ name ∈ named, name ∈ names (lines text.toList) := by
  rw [parse_eq_read, Reading.read]
  unfold names
  induction (lines text.toList).map Line.ofChars with
  | nil => exact ⟨[], .inl rfl, by simp⟩
  | cons l ls ih =>
    rw [List.foldl_cons]
    cases l with
    | heading name =>
      have hone : (Reading.add {} (.heading name)).config.headings = [name] := rfl
      obtain ⟨added, he, hadded⟩ := Reading.exists_headings_foldl_add
        (r := Reading.add {} (.heading name)) (by rw [hone]; simp [Reading.add]) ls
      refine ⟨name :: added, .inl he, List.forall_mem_cons.mpr ⟨by simp [Line.name?], ?_⟩⟩
      intro n hn
      exact List.mem_cons_of_mem _ (hadded n hn)
    | setting key value =>
      have hone : (Reading.add {} (.setting key value)).config.headings = [firstHeading] := rfl
      obtain ⟨added, he, hadded⟩ := Reading.exists_headings_foldl_add
        (r := Reading.add {} (.setting key value)) (by rw [hone]; simp [Reading.add]) ls
      exact ⟨added, .inr he, hadded⟩
    | other => exact ih

/-! ## Tidy texts -/

/-- The lines of a tidy text are so together with their sections. -/
theorem place_sublist_of_isTidy {text : String} (h : IsTidy text) :
    (place firstHeading (lines text.toList)).Sublist
      (place firstHeading (parse text).renderedLines) := by
  have hc := isClean_parse text
  have hnames := names_renderedLines hc
  have hd : (names (parse text).renderedLines).Nodup := by
    rw [hnames]
    exact (isDistinct_parse text).nodup_headings
  rw [IsTidy, lines_render hc] at h
  obtain ⟨named, hheadings, hnamed⟩ := exists_headings_parse text
  by_cases hn : ∀ name ∈ names (parse text).renderedLines, name ∈ names (lines text.toList)
  · exact place_sublist h hd hn firstHeading
  · -- The one heading that is left out names the section that was open without it.
    have hfirst : (parse text).headings = firstHeading :: named := by
      refine hheadings.resolve_left fun hh => hn fun name hname => ?_
      rw [hnames, hh] at hname
      exact hnamed name hname
    obtain ⟨rest, hrest⟩ := exists_renderedLines_eq_cons hfirst
    rw [hrest, names_headingChars isHeading_firstHeading] at hd hnames hn
    rw [hrest] at h ⊢
    have hnames' : names rest = named := by
      rw [hfirst, List.cons.injEq] at hnames
      exact hnames.2
    rw [hnames'] at hd hn
    have hsub : (lines text.toList).Sublist rest := by
      refine (List.sublist_cons_iff.mp h).resolve_right ?_
      rintro ⟨ls, hls, -⟩
      refine hn (List.forall_mem_cons.mpr ⟨?_, hnamed⟩)
      rw [hls, names_headingChars isHeading_firstHeading]
      exact List.mem_cons_self
    rw [place_headingChars isHeading_firstHeading]
    rw [← hnames'] at hd hnamed
    exact .cons _ (place_sublist hsub (List.nodup_cons.mp hd).2 hnamed firstHeading)

/-- Every write to a tidy text keeps its other lines. -/
theorem keepsOthers_of_isTidy {text : String} (h : IsTidy text) {heading key value : String}
    (hh : IsHeading heading) (hk : IsKey key) (hv : IsValue value) :
    KeepsOthers heading key text (rewritten text heading key value) := by
  have hc := isClean_parse text
  have hplace := (place_sublist_of_isTidy h).trans
    (place_isPrefix (renderedLines_isPrefix_touch (parse text) heading) firstHeading).sublist
  have hothers : (otherLines heading key (lines text.toList)).Sublist
      (otherLines heading key ((parse text).set heading key value).renderedLines) := by
    rw [otherLines_set hc value hh hk]
    exact (hplace.filter _).map Prod.snd
  rw [KeepsOthers, rewritten, lines_render (hc.set hh hk hv)]
  exact hothers.trans (otherLines_sublist heading key _)

/-- Every write keeps the other lines of what is written of a text as it is. -/
theorem keepsOthers_render_parse (text : String) {heading key value : String}
    (hh : IsHeading heading) (hk : IsKey key) (hv : IsValue value) :
    KeepsOthers heading key (parse text).render (rewritten text heading key value) := by
  have hc := isClean_parse text
  have hd := isDistinct_parse text
  have hkeeps := keepsOthers_of_isTidy (isTidy_render hc hd) hh hk hv
  rwa [rewritten, parse_render hc hd, ← rewritten] at hkeeps

theorem Reading.mem_headings_foldl_add {r : Reading} {name : String}
    (h : name ∈ r.config.headings) (ls : List Line) :
    name ∈ (ls.foldl add r).config.headings := by
  induction ls generalizing r with
  | nil => exact h
  | cons l ls ih =>
    refine ih ?_
    cases l with
    | heading name' =>
      simp only [add, headings_touch, NameMap.addName]
      split <;> simp [h]
    | setting key value =>
      simp only [add, headings_set, NameMap.addName]
      split <;> simp [h]
    | other => exact h

theorem Reading.eq_other_of_headings_eq_nil {r : Reading} {ls : List Line}
    (h : (ls.foldl add r).config.headings = []) : ∀ l ∈ ls, l = .other := by
  induction ls generalizing r with
  | nil => simp
  | cons l ls ih =>
    refine List.forall_mem_cons.mpr ⟨?_, ih h⟩
    have hl : (r.add l).config.headings = [] := by
      refine List.eq_nil_iff_forall_not_mem.mpr fun name hname => ?_
      have hmem := mem_headings_foldl_add hname ls
      rw [← List.foldl_cons, h] at hmem
      cases hmem
    cases l with
    | heading name =>
      simp only [add, headings_touch, NameMap.addName] at hl
      split at hl <;> simp_all
    | setting key value =>
      simp only [add, headings_set, NameMap.addName] at hl
      split at hl <;> simp_all
    | other => rfl

/-- A text without sections has no lines that are headings or settings. -/
theorem eq_other_of_headings_parse_eq_nil {text : String} (h : (parse text).headings = [])
    {l : List Char} (hl : l ∈ lines text.toList) : Line.ofChars l = .other := by
  rw [parse_eq_read, Reading.read] at h
  exact Reading.eq_other_of_headings_eq_nil h _ (List.mem_map_of_mem hl)

/-- Whether a line is that of a setting with a key, whatever its section. -/
def hasKey (key : String) (l : List Char) : Bool := (Line.ofChars l).key?.any (equalFold key)

theorem exists_isKey_length (n : ℕ) : ∃ key, IsKey key ∧ key.toList.length = n + 1 := by
  induction n with
  | zero => exact ⟨"x", ⟨by decide, by decide, by decide, by decide, by decide, by decide⟩, rfl⟩
  | succ n ih =>
    obtain ⟨key, hk, hl⟩ := ih
    refine ⟨key ++ "x", hk.append_x.1, ?_⟩
    rw [String.toList_append, List.length_append, hl]
    rfl

/-- There is a key that no line has. -/
theorem exists_isKey_forall_hasKey_eq_false (ls : List (List Char)) :
    ∃ key, IsKey key ∧ ∀ l ∈ ls, hasKey key l = false := by
  let lengths := ((ls.map Line.ofChars).filterMap Line.key?).map (·.toList.length)
  obtain ⟨key, hk, hlength⟩ := exists_isKey_length lengths.sum
  refine ⟨key, hk, fun l hl => ?_⟩
  by_contra hf
  rw [Bool.not_eq_false, hasKey, Option.any_eq_true] at hf
  obtain ⟨key', hkey', hf⟩ := hf
  have hmem : key'.toList.length ∈ lengths :=
    List.mem_map_of_mem (List.mem_filterMap.mpr ⟨_, List.mem_map_of_mem hl, hkey'⟩)
  have hle := List.le_sum_of_mem hmem
  have heq := congrArg (fun s => s.toList.length) (equalFold_iff.mp hf)
  simp only [toList_fold, List.length_map] at heq
  omega

/-- Apart from the lines with its key, a setting leaves a section that is there as it is. -/
theorem filter_renderedLines_set {c : Config} (hc : c.IsClean) {heading key : String}
    (value : String) (h : heading ∈ c.headings) (hh : IsHeading heading) (hk : IsKey key) :
    (c.set heading key value).renderedLines.filter (fun l => !hasKey key l) =
      c.renderedLines.filter fun l => !hasKey key l := by
  have hp (name key' value' : String) (_ : equalFold heading name = true)
      (hkey : equalFold key key' = true) (hk' : IsKey key') :
      (!hasKey key (settingChars key' value')) = false := by
    rw [hasKey, settingChars, Line.ofChars_setting hk', Line.key?, Option.any_some, hkey]
    rfl
  have hplace := filter_place_set hc value hh hk (p := fun p => !hasKey key p.2) hp firstHeading
  have hfilter (ls : List (List Char)) : ls.filter (fun l => !hasKey key l) =
      ((place firstHeading ls).filter fun p => !hasKey key p.2).map Prod.snd := by
    conv_lhs => rw [← map_snd_place firstHeading ls, List.filter_map]
    rfl
  rw [hfilter, hfilter, hplace, touch_of_mem h]

theorem otherLines_eq_self {heading key : String} {ls : List (List Char)}
    (h : ∀ l ∈ ls, hasKey key l = false) : otherLines heading key ls = ls := by
  have hsets : ∀ p ∈ place firstHeading ls, (!sets heading key p) = true := by
    intro p hp
    have hl : p.2 ∈ ls := by
      rw [← map_snd_place firstHeading ls]
      exact List.mem_map_of_mem hp
    have hkey := h p.2 hl
    unfold hasKey at hkey
    unfold sets
    cases hl : (Line.ofChars p.2).key? with
    | none => rfl
    | some key' =>
      rw [hl, Option.any_some] at hkey
      rw [Option.any_some, addresses, hkey, Bool.and_false]
      rfl
  rw [otherLines, List.filter_eq_self.mpr hsets, map_snd_place]

/-- Every write to a text keeps all of its other lines exactly if the text is tidy. -/
theorem forall_keepsOthers_iff {text : String} :
    (∀ heading key value, IsHeading heading → IsKey key → IsValue value →
      KeepsOthers heading key text (rewritten text heading key value)) ↔
      IsTidy text := by
  refine ⟨fun h => ?_, fun h heading key value hh hk hv => keepsOthers_of_isTidy h hh hk hv⟩
  have hc := isClean_parse text
  obtain ⟨key, hk, hfresh⟩ := exists_isKey_forall_hasKey_eq_false (lines text.toList)
  have hkeeps : ∀ heading, IsHeading heading →
      (lines text.toList).Sublist ((parse text).set heading key "").renderedLines := by
    intro heading hh
    have hsub := h heading key "" hh hk isValue_empty
    rwa [KeepsOthers, otherLines_eq_self hfresh, rewritten,
      lines_render (hc.set hh hk isValue_empty)] at hsub
  rw [IsTidy, lines_render hc]
  cases hheadings : (parse text).headings with
  | nil =>
    have hes : (parse text).sections.entries = [] := List.map_eq_nil_iff.mp hheadings
    have hset : ((parse text).set firstHeading key "").renderedLines =
        [headingChars firstHeading, settingChars key ""] := by
      rw [renderedLines, Config.set, NameMap.update, hes]
      rfl
    have hnil : lines text.toList = [] := by
      refine List.eq_nil_iff_forall_not_mem.mpr fun l hl => ?_
      have hother := eq_other_of_headings_parse_eq_nil hheadings hl
      have hmem := (hkeeps firstHeading isHeading_firstHeading).mem hl
      rw [hset, List.mem_pair] at hmem
      rcases hmem with rfl | rfl
      · rw [headingChars, Line.ofChars_heading isHeading_firstHeading] at hother
        cases hother
      · rw [settingChars, Line.ofChars_setting hk] at hother
        cases hother
    rw [hnil]
    exact List.nil_sublist _
  | cons name named =>
    have hname : name ∈ (parse text).headings := by simp [hheadings]
    have hh : IsHeading name := by
      obtain ⟨e, he, rfl⟩ := List.mem_map.mp hname
      exact hc.heading e he
    have hsub := (hkeeps name hh).filter fun l => !hasKey key l
    rw [filter_renderedLines_set hc "" hname hh hk, List.filter_eq_self.mpr (by simpa)] at hsub
    exact hsub.trans List.filter_sublist

end Config

end StackScript
