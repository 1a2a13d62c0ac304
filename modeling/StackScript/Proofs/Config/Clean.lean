import StackScript.Config
import StackScript.Proofs.NameMap
import StackScript.Proofs.Text.Lines
import StackScript.Proofs.Text.Trim

/-!
# Headings, keys and values that a line can hold

* `IsHeading`, `IsKey` and `IsValue` say of a text that a line with it is read back
  (`Line.ofChars_heading`, `Line.ofChars_setting`, `IsValue.read`). Letter case does not matter to
  the first two (`IsHeading.congr`, `IsKey.congr`).
* `IsClean`: all texts of the settings are of these kinds; `IsDistinct`: no two headings, and no two
  keys under one heading, are equal up to case. Reading keeps both (`Reading.isClean_add`,
  `Reading.isDistinct_add`).
-/

namespace StackScript

open Text

namespace Config

/-- A text that can be the name in a heading line. -/
structure IsHeading (name : String) : Prop where
  trimmed : trim name.toList = name.toList
  newline : '\n' ∉ name.toList
  comment : ';' ∉ name.toList
  bracket : ']' ∉ name.toList

/-- A text that can be the key in the line of a setting. -/
structure IsKey (key : String) : Prop where
  ne_nil : key.toList ≠ []
  trimmed : trim key.toList = key.toList
  newline : '\n' ∉ key.toList
  comment : ';' ∉ key.toList
  equals : '=' ∉ key.toList
  bracket : key.toList.head? ≠ some '['

/-- A text that can be the value in the line of a setting. -/
structure IsValue (value : String) : Prop where
  trimmed : trim value.toList = value.toList
  newline : '\n' ∉ value.toList
  comment : ';' ∉ value.toList

theorem isHeading_firstHeading : IsHeading firstHeading :=
  ⟨by decide, by decide, by decide, by decide⟩

/-! ## Letter case -/

theorem toList_fold (s : String) : (fold s).toList = s.toList.map Char.toLower := String.toList_map

theorem isHeading_fold {name : String} : IsHeading (fold name) ↔ IsHeading name := by
  have hn := mem_map_toLower_iff (d := '\n') name.toList (by decide)
  have hc := mem_map_toLower_iff (d := ';') name.toList (by decide)
  have hb := mem_map_toLower_iff (d := ']') name.toList (by decide)
  constructor <;> rintro ⟨h₁, h₂, h₃, h₄⟩ <;> refine ⟨?_, ?_, ?_, ?_⟩ <;>
    simp_all only [toList_fold, trim_map_toLower_eq_self_iff, not_false_eq_true]

theorem IsHeading.congr {name name' : String} (h : IsHeading name)
    (e : equalFold name name' = true) : IsHeading name' := by
  rw [← isHeading_fold, equalFold_iff.mp e] at h
  exact isHeading_fold.mp h

theorem isKey_fold {key : String} : IsKey (fold key) ↔ IsKey key := by
  have hn := mem_map_toLower_iff (d := '\n') key.toList (by decide)
  have hc := mem_map_toLower_iff (d := ';') key.toList (by decide)
  have he := mem_map_toLower_iff (d := '=') key.toList (by decide)
  have hb : (key.toList.map Char.toLower).head? = some '[' ↔ key.toList.head? = some '[' := by
    rw [List.head?_map, Option.map_eq_some_iff]
    simp only [toLower_eq_iff (d := '[') (by decide), exists_eq_right]
  constructor <;> rintro ⟨h₁, h₂, h₃, h₄, h₅, h₆⟩ <;> refine ⟨?_, ?_, ?_, ?_, ?_, ?_⟩ <;>
    simp_all only [toList_fold, trim_map_toLower_eq_self_iff, not_false_eq_true, ne_eq,
      List.map_eq_nil_iff]

theorem IsKey.congr {key key' : String} (h : IsKey key) (e : equalFold key key' = true) :
    IsKey key' := by
  rw [← isKey_fold, equalFold_iff.mp e] at h
  exact isKey_fold.mp h

/-! ## Lines -/

/-- A heading line is read back. -/
theorem Line.ofChars_heading {name : String} (h : IsHeading name) :
    Line.ofChars ('[' :: name.toList ++ [']']) = .heading name := by
  have hc : ';' ∉ '[' :: name.toList ++ [']'] := by simp [h.comment]
  have ht : trim ('[' :: name.toList ++ [']']) = '[' :: name.toList ++ [']'] := by
    refine trim_eq_self_iff.mpr ⟨fun c hc => ?_, fun c hc => ?_⟩
    · obtain rfl : '[' = c := by simpa using hc
      rfl
    · rw [List.getLast?_concat, Option.some.injEq] at hc
      rw [← hc]
      rfl
  rw [Line.ofChars, before_eq_self hc, ht]
  simp only [List.cons_append, Line.ofTrimmed, splitOnce?_append [] h.bracket, h.trimmed,
    String.ofList_toList]

/-- The line of a setting is read as a setting, whatever the value. -/
theorem Line.ofChars_setting {key : String} (h : IsKey key) (cs : List Char) :
    Line.ofChars (key.toList ++ '=' :: cs) =
      .setting key (String.ofList (trim (before ';' cs))) := by
  have hb : before ';' (key.toList ++ '=' :: cs) = key.toList ++ '=' :: before ';' cs := by
    have hp : ∀ c ∈ key.toList, (c != ';') = true := by
      intro c hc
      simp only [bne_iff_ne, ne_eq]
      rintro rfl
      exact h.comment hc
    rw [before, List.takeWhile_append_of_pos hp]
    simp [before]
  rw [Line.ofChars, hb, trim_append_of_ne_nil _ h.ne_nil h.trimmed (by decide)]
  obtain ⟨c, ks, hk⟩ := List.exists_cons_of_ne_nil h.ne_nil
  have hc : c ≠ '[' := by
    rintro rfl
    exact h.bracket (by rw [hk]; rfl)
  have hs := splitOnce?_append (trimRight (before ';' cs)) h.equals
  unfold Line.ofTrimmed
  split
  · rename_i rest e
    rw [hk, List.cons_append, List.cons.injEq] at e
    exact absurd e.1 hc
  · rw [hs]
    simp only [h.trimmed, h.ne_nil, if_false, trim_trimRight, String.ofList_toList]

theorem IsValue.read {value : String} (h : IsValue value) :
    String.ofList (trim (before ';' value.toList)) = value := by
  rw [before_eq_self h.comment, h.trimmed, String.ofList_toList]

/-- What a line says could be written. -/
def Line.IsClean : Line → Prop
  | .heading name => IsHeading name
  | .setting key value => IsKey key ∧ IsValue value
  | .other => True

theorem isHeading_trim {cs : List Char} (hn : '\n' ∉ cs) (hc : ';' ∉ cs) (hb : ']' ∉ cs) :
    IsHeading (String.ofList (trim cs)) := by
  constructor <;> rw [String.toList_ofList]
  · exact trim_trim cs
  · exact fun h => hn (mem_of_mem_trim h)
  · exact fun h => hc (mem_of_mem_trim h)
  · exact fun h => hb (mem_of_mem_trim h)

theorem isKey_trim {cs : List Char} (hk : trim cs ≠ []) (hn : '\n' ∉ cs) (hc : ';' ∉ cs)
    (he : '=' ∉ cs) (hb : (trim cs).head? ≠ some '[') : IsKey (String.ofList (trim cs)) := by
  constructor <;> rw [String.toList_ofList]
  · exact hk
  · exact trim_trim cs
  · exact fun h => hn (mem_of_mem_trim h)
  · exact fun h => hc (mem_of_mem_trim h)
  · exact fun h => he (mem_of_mem_trim h)
  · exact hb

theorem isValue_trim {cs : List Char} (hn : '\n' ∉ cs) (hc : ';' ∉ cs) :
    IsValue (String.ofList (trim cs)) := by
  constructor <;> rw [String.toList_ofList]
  · exact trim_trim cs
  · exact fun h => hn (mem_of_mem_trim h)
  · exact fun h => hc (mem_of_mem_trim h)

theorem Line.isClean_ofTrimmed {cs : List Char} (ht : trim cs = cs) (hn : '\n' ∉ cs)
    (hc : ';' ∉ cs) : (Line.ofTrimmed cs).IsClean := by
  unfold Line.ofTrimmed
  split
  · split
    · rename_i name after hs
      obtain ⟨rfl, hb⟩ := splitOnce?_eq_some_iff.mp hs
      simp only [List.mem_cons, List.mem_append, not_or] at hn hc
      exact isHeading_trim hn.2.1 hc.2.1 hb
    · trivial
  · rename_i hl
    split
    · rename_i key value hs
      obtain ⟨rfl, he⟩ := splitOnce?_eq_some_iff.mp hs
      simp only [List.mem_cons, List.mem_append, not_or] at hn hc
      split
      · trivial
      · rename_i hk
        -- The line is trimmed, so the key begins with its first character.
        have hne : key ≠ [] := by
          rintro rfl
          exact hk rfl
        have hh : (key ++ '=' :: value).head? = key.head? := List.head?_append_of_ne_nil _ hne
        have hl' : trimLeft key = key := trimLeft_eq_self_iff.mpr fun c hc' =>
          (trim_eq_self_iff.mp ht).1 c (hh.trans hc')
        have hb : (trim key).head? ≠ some '[' := by
          rw [head?_trim hl' hk]
          intro hb
          obtain ⟨ks, rfl⟩ := List.head?_eq_some_iff.mp hb
          exact hl _ rfl
        exact ⟨isKey_trim hk hn.1 hc.1 he hb, isValue_trim hn.2.2 hc.2.2⟩
    · trivial

/-- What a line is read as is read again when it is written. -/
theorem Line.isClean_ofChars {cs : List Char} (h : '\n' ∉ cs) : (Line.ofChars cs).IsClean := by
  refine Line.isClean_ofTrimmed (trim_trim _) (fun hm => ?_) fun hm => ?_
  · exact h ((List.takeWhile_sublist _).mem (mem_of_mem_trim hm))
  · exact not_mem_before ';' cs (mem_of_mem_trim hm)

/-! ## Settings -/

theorem headings_touch (c : Config) (heading : String) :
    (c.touch heading).headings = NameMap.addName c.headings heading := NameMap.keys_update_eq _ _ _

theorem headings_set (c : Config) (heading key value : String) :
    (c.set heading key value).headings = NameMap.addName c.headings heading :=
  NameMap.keys_update_eq _ _ _

/-- All headings, keys and values could be written. -/
structure IsClean (c : Config) : Prop where
  heading : ∀ e ∈ c.sections.entries, IsHeading e.1
  setting : ∀ e ∈ c.sections.entries, ∀ x ∈ e.2.entries, IsKey x.1 ∧ IsValue x.2

/-- No two headings, and no two keys under one heading, are equal up to case. -/
structure IsDistinct (c : Config) : Prop where
  heading : c.sections.IsDistinct
  setting : ∀ e ∈ c.sections.entries, e.2.IsDistinct

theorem isClean_empty : IsClean {} := ⟨by simp, by simp⟩

theorem isDistinct_empty : IsDistinct {} := ⟨NameMap.isDistinct_empty, by simp⟩

variable {c : Config}

theorem IsClean.touch (hc : c.IsClean) {heading : String} (h : IsHeading heading) :
    (c.touch heading).IsClean where
  heading := NameMap.forall_mem_update hc.heading h hc.heading
  setting := NameMap.forall_mem_update hc.setting (by simp) hc.setting

theorem IsClean.set (hc : c.IsClean) {heading key value : String} (h : IsHeading heading)
    (hk : IsKey key) (hv : IsValue value) : (c.set heading key value).IsClean where
  heading := NameMap.forall_mem_update hc.heading h hc.heading
  setting := by
    refine NameMap.forall_mem_update hc.setting ?_ fun e he => ?_
    · exact NameMap.forall_mem_update (by simp) ⟨hk, hv⟩ (by simp)
    · exact NameMap.forall_mem_update (hc.setting e he) ⟨hk, hv⟩ fun x hx =>
        ⟨(hc.setting e he x hx).1, hv⟩

theorem IsDistinct.touch (hc : c.IsDistinct) (heading : String) : (c.touch heading).IsDistinct where
  heading := NameMap.isDistinct_update hc.heading _ _
  setting := NameMap.forall_mem_update hc.setting NameMap.isDistinct_empty hc.setting

theorem IsDistinct.set (hc : c.IsDistinct) (heading key value : String) :
    (c.set heading key value).IsDistinct where
  heading := NameMap.isDistinct_update hc.heading _ _
  setting := NameMap.forall_mem_update hc.setting
    (NameMap.isDistinct_update NameMap.isDistinct_empty _ _)
    fun e he => NameMap.isDistinct_update (hc.setting e he) _ _

/-! ## What is read -/

/-- Reading keeps all texts of the kinds that can be written. -/
theorem Reading.isClean_add {r : Reading} {l : Line} (hr : IsHeading r.current)
    (hc : r.config.IsClean) (hl : l.IsClean) :
    IsHeading (r.add l).current ∧ (r.add l).config.IsClean := by
  cases l with
  | heading name => exact ⟨hl, hc.touch hl⟩
  | setting key value => exact ⟨hr, hc.set hr hl.1 hl.2⟩
  | other => exact ⟨hr, hc⟩

theorem Reading.isDistinct_add {r : Reading} (hc : r.config.IsDistinct) (l : Line) :
    (r.add l).config.IsDistinct := by
  cases l with
  | heading name => exact hc.touch name
  | setting key value => exact hc.set _ key value
  | other => exact hc

end Config

end StackScript
