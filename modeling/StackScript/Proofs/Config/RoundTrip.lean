import StackScript.Proofs.Config.Read

/-!
# Settings are read back

* `parse_render`: settings that are clean and distinct are read back from the text written of them,
  in their order and spelling.
* `IsBuilt`: settings that were read or come from such by setting values. They are distinct, so that
  being clean is all it takes to be read back (`parse_inverts_render`).
-/

namespace StackScript

open Text

namespace Config

namespace Reading

/-- The settings under a new heading are read back, over those already read under it. -/
theorem readSettings_of_isClean {name : String} {before : List (String × NameMap String)}
    {done rest : List (String × String)} (hn : ∀ e ∈ before, equalFold e.1 name = false)
    (hc : ∀ x ∈ rest, IsKey x.1 ∧ IsValue x.2)
    (hd : (done ++ rest).Pairwise fun a b => equalFold a.1 b.1 = false) :
    readSettings ⟨name, ⟨⟨before ++ [(name, ⟨done⟩)]⟩⟩⟩ rest =
      ⟨name, ⟨⟨before ++ [(name, ⟨done ++ rest⟩)]⟩⟩⟩ := by
  induction rest generalizing done with
  | nil => rw [List.append_nil, readSettings_nil]
  | cons x rest ih =>
    obtain ⟨⟨hk, hv⟩, hc⟩ := List.forall_mem_cons.mp hc
    have hx : ∀ y ∈ done, equalFold y.1 x.1 = false := fun y hy =>
      (List.pairwise_append.mp hd).2.2 y hy x List.mem_cons_self
    have hs : Config.set ⟨⟨before ++ [(name, ⟨done⟩)]⟩⟩ name x.1 x.2 =
        ⟨⟨before ++ [(name, ⟨done ++ [x]⟩)]⟩⟩ := by
      simp only [Config.set, NameMap.update]
      rw [NameMap.updateEntries_append _ hn (equalFold_refl name), Option.getD_some,
        NameMap.insert, NameMap.update, NameMap.updateEntries_of_forall _ hx]
    rw [readSettings_cons, read_settingLine _ hk hv, add, hs]
    have hd' : ((done ++ [x]) ++ rest).Pairwise fun a b => equalFold a.1 b.1 = false := by
      rwa [List.append_assoc, List.singleton_append]
    rw [ih hc hd', List.append_assoc, List.singleton_append]

/-- Sections with new headings are read back, after those already read. -/
theorem readSections_of_isClean {done rest : List (String × NameMap String)} (current : String)
    (hc : IsClean ⟨⟨rest⟩⟩) (hs : ∀ e ∈ rest, e.2.IsDistinct)
    (hd : (done ++ rest).Pairwise fun a b => equalFold a.1 b.1 = false) :
    (readSections ⟨current, ⟨⟨done⟩⟩⟩ rest).config = ⟨⟨done ++ rest⟩⟩ := by
  induction rest generalizing done current with
  | nil => rw [List.append_nil, readSections_nil]
  | cons e rest ih =>
    obtain ⟨hh, hhs⟩ := List.forall_mem_cons.mp hc.heading
    obtain ⟨hx, hxs⟩ := List.forall_mem_cons.mp hc.setting
    obtain ⟨he, hes⟩ := List.forall_mem_cons.mp hs
    have hn : ∀ y ∈ done, equalFold y.1 e.1 = false := fun y hy =>
      (List.pairwise_append.mp hd).2.2 y hy e List.mem_cons_self
    have ht : Config.touch ⟨⟨done⟩⟩ e.1 = ⟨⟨done ++ [(e.1, ⟨[]⟩)]⟩⟩ := by
      simp only [Config.touch, NameMap.update]
      rw [NameMap.updateEntries_of_forall _ hn]
      rfl
    have hr : readSettings ⟨e.1, ⟨⟨done ++ [(e.1, ⟨[]⟩)]⟩⟩⟩ e.2.entries =
        ⟨e.1, ⟨⟨done ++ [(e.1, ⟨e.2.entries⟩)]⟩⟩⟩ := readSettings_of_isClean hn hx he
    rw [readSections_cons, read_sectionText, read_headingLine _ hh, add, ht, hr]
    have hd' : ((done ++ [e]) ++ rest).Pairwise fun a b => equalFold a.1 b.1 = false := by
      rwa [List.append_assoc, List.singleton_append]
    show (readSections ⟨e.1, ⟨⟨done ++ [e]⟩⟩⟩ rest).config = _
    rw [ih e.1 ⟨hhs, hxs⟩ hes hd', List.append_assoc, List.singleton_append]

end Reading

/-- The sections of settings that are clean and distinct are read back one after the other. -/
theorem config_readSections {c : Config} (hc : c.IsClean) (hd : c.IsDistinct) :
    (Reading.readSections {} c.sections.entries).config = c :=
  Reading.readSections_of_isClean firstHeading hc hd.setting hd.heading

/-- Settings that are clean and distinct are read back, in their order and spelling. -/
theorem parse_render {c : Config} (hc : c.IsClean) (hd : c.IsDistinct) : parse (render c) = c := by
  rw [parse_eq_read, Reading.read_render, config_readSections hc hd]

/-! ## Settings that can come about -/

/-- Settings that were read from a text, or come from such settings by giving one a value. -/
inductive IsBuilt : Config → Prop
  | parse (text : String) : IsBuilt (parse text)
  | set {c : Config} (hc : IsBuilt c) (heading key value : String) :
      IsBuilt (c.set heading key value)

theorem IsBuilt.isDistinct {c : Config} (h : IsBuilt c) : c.IsDistinct := by
  induction h with
  | parse text => exact isDistinct_parse text
  | set _ heading key value ih => exact ih.set heading key value

/-- What comes back from a text is clean, so only clean settings can come back as they were. -/
theorem isClean_of_parse_render {c : Config} (h : parse (render c) = c) : c.IsClean := by
  rw [← h]
  exact isClean_parse (render c)

/-- Reading undoes writing: every text is read as clean settings, a clean setting keeps settings
clean, and settings come back from their text, in their order and spelling, exactly if they are
clean. So a text that was read, written and read again gives what it gave at first. -/
theorem parse_inverts_render :
    (∀ text, (parse text).IsClean) ∧
      (∀ (c : Config) (heading key value : String), c.IsClean → IsHeading heading → IsKey key →
        IsValue value → (c.set heading key value).IsClean) ∧
      (∀ c, IsBuilt c → (parse (render c) = c ↔ c.IsClean)) ∧
      ∀ text, parse (render (parse text)) = parse text := by
  refine ⟨isClean_parse, ?_, ?_, ?_⟩
  · intro c heading key value hc hh hk hv
    exact hc.set hh hk hv
  · intro c hb
    exact ⟨isClean_of_parse_render, fun hc => parse_render hc hb.isDistinct⟩
  · intro text
    exact parse_render (isClean_parse text) (isDistinct_parse text)

/-- Brackets that open in a heading, close in a key and stand in a value come back, over settings
whose section and key came twice in different spellings. -/
theorem parse_inverts_render_brackets :
    let c := (parse "[ A ]\nX = 1 ; one\n[a]\nx=2").set "[b" "k]" "=[v]"
    IsBuilt c ∧ c.IsClean ∧ parse (render c) = c := by
  intro c
  obtain ⟨hp, hset, hrt, -⟩ := parse_inverts_render
  have hb : IsBuilt c := .set (.parse _) _ _ _
  have hh : IsHeading "[b" := ⟨by decide, by decide, by decide, by decide⟩
  have hk : IsKey "k]" := ⟨by decide, by decide, by decide, by decide, by decide, by decide⟩
  have hv : IsValue "=[v]" := ⟨by decide, by decide, by decide⟩
  have hc : c.IsClean := hset _ _ _ _ (hp _) hh hk hv
  exact ⟨hb, hc, (hrt c hb).mpr hc⟩

end Config

end StackScript
