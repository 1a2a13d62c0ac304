import StackScript.Proofs.Config.Read

/-!
# Settings over settings

A settings text after another one, with a line feed between them. What the later text sets lies over
what the earlier one sets; sections and keys keep the place and the spelling that they had first.

* `Overlays a b c`: the settings `c` are those of `b` over those of `a`. The relation is kept when a
  section is begun and when a value is set in `b` and `c` alike (`Overlays.touch`, `Overlays.set`).
* `Reading.overlays_foldl_add`: so it is kept by lines that are read in one section.
* `Reading.overlays_lines`: a text that opens with a heading is read alike in any section, since
  nothing is set before its heading.
* `parse_overlays` puts these together for texts.
-/

namespace StackScript

open Text

namespace Config

open NameMap

/-- The keys of a section as spelled, in order; none if there is no such section. -/
def keys (c : Config) (heading : String) : List String :=
  ((c.sections.get? heading).getD {}).keys

/-- A section that need not have settings adds no key. -/
theorem keys_touch (c : Config) (name heading : String) :
    (c.touch name).keys heading = c.keys heading := by
  unfold keys touch
  cases h : equalFold name heading with
  | true =>
    rw [get?_update_self _ _ h, get?_congr _ h]
    cases c.sections.get? heading <;> rfl
  | false => rw [get?_update_of_ne _ _ h]

/-- A setting adds its key to the keys of its section. -/
theorem keys_set (c : Config) (name key value heading : String) :
    (c.set name key value).keys heading =
      if equalFold name heading then addName (c.keys heading) key else c.keys heading := by
  unfold keys set
  cases h : equalFold name heading with
  | true =>
    rw [get?_update_self _ _ h, get?_congr _ h]
    exact keys_update_eq _ _ _
  | false =>
    rw [get?_update_of_ne _ _ h]
    rfl

/-! ## Settings over settings -/

/-- The settings `c` are those of `b` over those of `a`: a value of `b` counts before one of `a`, and
the headings, and the keys of each section, are those of `a` and after them the new ones of `b`. -/
structure Overlays (a b c : Config) : Prop where
  get? : ∀ heading key, c.get? heading key = (b.get? heading key).or (a.get? heading key)
  headings : c.headings = joinNames a.headings b.headings
  keys : ∀ heading, c.keys heading = joinNames (a.keys heading) (b.keys heading)

variable {a b c : Config}

theorem overlays_empty (a : Config) : Overlays a {} a where
  get? _ _ := rfl
  headings := (List.append_nil _).symm
  keys _ := (List.append_nil _).symm

theorem Overlays.touch (h : Overlays a b c) (name : String) :
    Overlays a (b.touch name) (c.touch name) where
  get? heading key := by rw [get?_touch, get?_touch, h.get?]
  headings := by rw [headings_touch, headings_touch, h.headings, addName_joinNames]
  keys heading := by rw [keys_touch, keys_touch, h.keys]

theorem Overlays.set (h : Overlays a b c) (name key value : String) :
    Overlays a (b.set name key value) (c.set name key value) where
  get? heading key' := by
    cases hs : equalFold name heading && equalFold key key' with
    | true =>
      obtain ⟨hh, hk⟩ := Bool.and_eq_true_iff.mp hs
      rw [get?_set_self _ _ hh hk, get?_set_self _ _ hh hk, Option.some_or]
    | false => rw [get?_set_of_ne _ _ hs, get?_set_of_ne _ _ hs, h.get?]
  headings := by rw [headings_set, headings_set, h.headings, addName_joinNames]
  keys heading := by
    rw [keys_set, keys_set, h.keys]
    split
    · rw [addName_joinNames]
    · rfl

namespace Reading

theorem overlays_add {r r' : Reading} (hc : r.current = r'.current)
    (h : Overlays a r.config r'.config) (l : Line) :
    Overlays a (r.add l).config (r'.add l).config := by
  cases l with
  | heading name => exact h.touch name
  | setting key value =>
    simp only [add, hc]
    exact h.set _ key value
  | other => exact h

/-- Lines that are read in one section keep settings over settings. -/
theorem overlays_foldl_add {r r' : Reading} (hc : r.current = r'.current)
    (h : Overlays a r.config r'.config) (ls : List Line) :
    Overlays a (ls.foldl add r).config (ls.foldl add r').config := by
  induction ls generalizing r r' with
  | nil => exact h
  | cons l ls ih => exact ih (current_add r r' l hc) (overlays_add hc h l)

end Reading

/-! ## Texts that open with a heading -/

/-- Whether there is more to a line than blanks and a comment. -/
def hasContent (l : List Char) : Bool := !(trim (before ';' l)).isEmpty

/-- Whether a line begins a section: without its comment and the blanks around it, it begins with a
bracket, and has one that closes after it. -/
def beginsSection (l : List Char) : Bool :=
  match trim (before ';' l) with
  | '[' :: rest => rest.contains ']'
  | _ => false

/-- Whether the first line with content, if there is one, begins a section. -/
def opensSection (text : String) : Bool :=
  ((lines text.toList).find? hasContent).all beginsSection

theorem Line.ofChars_of_not_hasContent {l : List Char} (h : ¬ hasContent l = true) :
    Line.ofChars l = .other := by
  have ht : trim (before ';' l) = [] := by simpa [hasContent] using h
  rw [ofChars, ht]
  rfl

theorem Line.exists_heading {l : List Char} (h : beginsSection l = true) :
    ∃ name, Line.ofChars l = .heading name := by
  unfold beginsSection at h
  split at h
  · rename_i rest ht
    cases hs : splitOnce? ']' rest with
    | none => exact absurd (List.contains_iff_mem.mp h) (splitOnce?_eq_none_iff.mp hs)
    | some p =>
      refine ⟨String.ofList (trim p.1), ?_⟩
      rw [ofChars, ht]
      simp only [ofTrimmed, hs]
  · cases h

theorem before_concat_of_ne {c d : Char} (l : List Char) (h : d ≠ c) :
    before c (l ++ [d]) = before c l ∨ before c (l ++ [d]) = before c l ++ [d] := by
  unfold before
  rw [List.takeWhile_append]
  split
  · rename_i hl
    have hall : l.takeWhile (· != c) = l := (List.takeWhile_prefix _).eq_of_length hl
    rw [hall]
    simp [h]
  · exact .inl rfl

/-- A blank at the end of a line does not count, also not after a comment. -/
theorem Line.ofChars_concat_of_blank {c : Char} (l : List Char) (hc : isBlank c = true) :
    Line.ofChars (l ++ [c]) = Line.ofChars l := by
  have hne : c ≠ ';' := by
    rintro rfl
    exact absurd hc (by decide)
  unfold ofChars
  rcases before_concat_of_ne l hne with h | h
  · rw [h]
  · rw [h, trim_concat_of_blank _ hc]

namespace Reading

/-- A line feed at the end of a text does not count. -/
theorem read_concat_newline (r : Reading) (cs : List Char) : r.read (cs ++ ['\n']) = r.read cs := by
  unfold read
  rcases lines_concat_cases cs with h | ⟨ls, l, l', hl, hl', hlast⟩
  · rw [h, List.map_append, List.foldl_append]
    rfl
  · have hline : Line.ofChars l = Line.ofChars l' := by
      rcases hlast with rfl | rfl
      · rfl
      · exact Line.ofChars_concat_of_blank l' (by decide)
    rw [hl, hl', List.map_append, List.map_append, List.map_singleton, List.map_singleton, hline]

/-- Lines that open with a heading set the same in any section. -/
theorem overlays_lines (r : Reading) {ls : List (List Char)}
    (h : (ls.find? hasContent).all beginsSection = true) :
    Overlays r.config ((ls.map Line.ofChars).foldl add {}).config
      ((ls.map Line.ofChars).foldl add r).config := by
  induction ls with
  | nil => exact overlays_empty r.config
  | cons l ls ih =>
    rw [List.map_cons, List.foldl_cons, List.foldl_cons]
    by_cases hl : hasContent l = true
    · rw [List.find?_cons_of_pos hl] at h
      obtain ⟨name, hname⟩ := Line.exists_heading h
      have hfirst : Overlays r.config (add {} (.heading name)).config
          (add r (.heading name)).config := (overlays_empty r.config).touch name
      rw [hname]
      exact overlays_foldl_add (by rfl) hfirst _
    · rw [List.find?_cons_of_neg hl] at h
      rw [Line.ofChars_of_not_hasContent hl]
      exact ih h

end Reading

/-- A text that opens with a heading lies over the text before it: its values count before those of
the earlier text, and it adds its new headings and keys after the earlier ones, which keep place and
spelling. No two headings of a text, and no two keys of a section, are equal up to the case of
letters. -/
theorem parse_overlays :
    (∀ a b : String, opensSection b → Overlays (parse a) (parse b) (parse (a ++ "\n" ++ b))) ∧
      ∀ text : String, (parse text).IsDistinct := by
  refine ⟨fun a b hb => ?_, isDistinct_parse⟩
  have htext : (a ++ "\n" ++ b).toList = (a.toList ++ ['\n']) ++ b.toList := by
    simp
  have hended : IsEnded (a.toList ++ ['\n']) := .inr ⟨a.toList, rfl⟩
  rw [parse_eq_read, parse_eq_read, parse_eq_read, htext, Reading.read_append hended,
    Reading.read_concat_newline]
  exact Reading.overlays_lines _ hb

/-- A section that comes again in other letters, with a key that comes again and a new one. -/
theorem parse_overlays_letters :
    opensSection "; note\n [b] \nK=2\nz=3" ∧
      ∃ c, c = parse ("[B]\nk = 1 ; one\r" ++ "\n" ++ "; note\n [b] \nK=2\nz=3") ∧
        c.headings = ["B"] ∧ c.keys "b" = ["k", "z"] ∧ c.get? "b" "K" = some "2" := by
  have hopens : opensSection "; note\n [b] \nK=2\nz=3" = true := by decide +kernel
  have h := parse_overlays.1 "[B]\nk = 1 ; one\r" "; note\n [b] \nK=2\nz=3" hopens
  have ha : parse "[B]\nk = 1 ; one\r" = ⟨⟨[("B", ⟨[("k", "1")]⟩)]⟩⟩ := by cbv
  have hb : parse "; note\n [b] \nK=2\nz=3" = ⟨⟨[("b", ⟨[("K", "2"), ("z", "3")]⟩)]⟩⟩ := by cbv
  have hB : equalFold "B" "b" = true := by
    simp [equalFold_iff, ← String.toList_inj, toList_fold]
  have hk : equalFold "k" "K" = true := by
    simp [equalFold_iff, ← String.toList_inj, toList_fold]
  have hz : equalFold "k" "z" = false := by decide +kernel
  refine ⟨hopens, _, rfl, ?_, ?_, ?_⟩
  · rw [h.headings, ha, hb]
    simp [headings, NameMap.keys, joinNames, hB]
  · rw [h.keys, ha, hb]
    simp [keys, NameMap.get?, NameMap.find?, NameMap.keys, joinNames, hB, hk, hz]
  · rw [h.get?, hb]
    simp [Config.get?, NameMap.get?, NameMap.find?]

end Config

end StackScript
