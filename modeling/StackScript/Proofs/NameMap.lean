import Mathlib
import StackScript.NameMap

/-!
# Where a map from names changes

* `updateEntries_cases`: an update changes the value of one entry or appends one.
* `IsDistinct`: no two names are equal up to case; updates keep this (`isDistinct_update`). Then
  every entry is found (`get?_eq_some_iff`) and stays at its place (`getElem?_entries_update`).
* `joinNames`: names and those of others that are not among them up to case. An update adds its name
  to the keys (`keys_update_eq`), and so to those of a map beneath (`addName_joinNames`).
-/

namespace StackScript

open Text

namespace NameMap

variable {α : Type}

/-- An update changes the value of the first entry of the name, or appends an entry. -/
theorem updateEntries_cases (name : String) (f : Option α → α) (es : List (String × α)) :
    (∃ pre e post, es = pre ++ e :: post ∧ equalFold e.1 name = true ∧
      (∀ x ∈ pre, equalFold x.1 name = false) ∧
        updateEntries name f es = pre ++ (e.1, f (some e.2)) :: post) ∨
      (∀ x ∈ es, equalFold x.1 name = false) ∧
        updateEntries name f es = es ++ [(name, f none)] := by
  induction es with
  | nil => exact .inr ⟨by simp, rfl⟩
  | cons e es ih =>
    cases he : equalFold e.1 name with
    | true =>
      exact .inl ⟨[], e, es, rfl, he, by simp, by simp [updateEntries, he]⟩
    | false =>
      have hu : updateEntries name f (e :: es) = e :: updateEntries name f es := by
        simp [updateEntries, he]
      rcases ih with ⟨pre, x, post, rfl, hx, hpre, h⟩ | ⟨hes, h⟩
      · refine .inl ⟨e :: pre, x, post, rfl, hx, List.forall_mem_cons.mpr ⟨he, hpre⟩, ?_⟩
        rw [hu, h, List.cons_append]
      · exact .inr ⟨List.forall_mem_cons.mpr ⟨he, hes⟩, by rw [hu, h, List.cons_append]⟩

theorem exists_entries_update (m : NameMap α) (name : String) (f : Option α → α) :
    ∃ e es, (m.update name f).entries = e :: es := by
  unfold update
  cases m.entries with
  | nil => exact ⟨_, _, rfl⟩
  | cons e es =>
    rw [updateEntries]
    split
    · exact ⟨_, _, rfl⟩
    · exact ⟨_, _, rfl⟩

/-- A name that no entry has is appended. -/
theorem updateEntries_of_forall {name : String} {es : List (String × α)} (f : Option α → α)
    (h : ∀ x ∈ es, equalFold x.1 name = false) :
    updateEntries name f es = es ++ [(name, f none)] := by
  rcases updateEntries_cases name f es with ⟨pre, e, post, rfl, he, -, -⟩ | ⟨-, h⟩
  · rw [h e (by simp)] at he
    cases he
  · exact h

/-- The entry of a name that none before it has is changed. -/
theorem updateEntries_append {name : String} {pre post : List (String × α)} {e : String × α}
    (f : Option α → α) (h : ∀ x ∈ pre, equalFold x.1 name = false)
    (he : equalFold e.1 name = true) :
    updateEntries name f (pre ++ e :: post) = pre ++ (e.1, f (some e.2)) :: post := by
  induction pre with
  | nil => simp [updateEntries, he]
  | cons x pre ih =>
    obtain ⟨hx, hpre⟩ := List.forall_mem_cons.mp h
    simp [updateEntries, hx, ih hpre]

/-- What holds of the entries and of the changed one holds after an update. -/
theorem forall_mem_update {p : String × α → Prop} {m : NameMap α} {name : String}
    {f : Option α → α} (h : ∀ e ∈ m.entries, p e) (hn : p (name, f none))
    (hf : ∀ e ∈ m.entries, p (e.1, f (some e.2))) : ∀ e ∈ (m.update name f).entries, p e := by
  rcases updateEntries_cases name f m.entries with ⟨pre, e, post, hm, -, -, hu⟩ | ⟨-, hu⟩
  · rw [update, hu]
    rw [hm] at h hf
    have he := hf e (by simp)
    intro x hx
    rcases List.mem_append.mp hx with hx | hx
    · exact h x (List.mem_append_left _ hx)
    · rcases List.mem_cons.mp hx with rfl | hx
      · exact he
      · exact h x (List.mem_append_right _ (List.mem_cons_of_mem _ hx))
  · rw [update, hu]
    intro x hx
    rcases List.mem_append.mp hx with hx | hx
    · exact h x hx
    · obtain rfl := List.mem_singleton.mp hx
      exact hn

/-! ## Distinct names -/

/-- No two names are equal up to case. -/
def IsDistinct (m : NameMap α) : Prop :=
  m.entries.Pairwise fun a b => equalFold a.1 b.1 = false

theorem isDistinct_empty : IsDistinct ({} : NameMap α) := List.Pairwise.nil

theorem isDistinct_update {m : NameMap α} (h : m.IsDistinct) (name : String) (f : Option α → α) :
    (m.update name f).IsDistinct := by
  unfold IsDistinct at h ⊢
  rcases updateEntries_cases name f m.entries with ⟨pre, e, post, hm, -, -, hu⟩ | ⟨hes, hu⟩
  · -- The changed entry keeps its name.
    rw [hm, List.pairwise_append, List.pairwise_cons] at h
    obtain ⟨hpre, ⟨he, hpost⟩, hlt⟩ := h
    rw [update, hu, List.pairwise_append, List.pairwise_cons]
    refine ⟨hpre, ⟨he, hpost⟩, fun x hx y hy => ?_⟩
    rcases List.mem_cons.mp hy with rfl | hy
    · exact hlt x hx e List.mem_cons_self
    · exact hlt x hx y (List.mem_cons_of_mem _ hy)
  · rw [update, hu, List.pairwise_append]
    refine ⟨h, List.pairwise_singleton _ _, fun x hx y hy => ?_⟩
    obtain rfl := List.mem_singleton.mp hy
    exact hes x hx

/-- A name that is found is the name of an entry. -/
theorem mem_of_get?_eq_some {m : NameMap α} {name : String} {value : α}
    (h : m.get? name = some value) : ∃ e ∈ m.entries, equalFold e.1 name = true ∧ e.2 = value := by
  obtain ⟨e, he, rfl⟩ := Option.map_eq_some_iff.mp h
  unfold find? at he
  have hn := List.find?_some he
  exact ⟨e, List.mem_of_find?_eq_some he, hn, rfl⟩

/-- With distinct names every entry is found, by any spelling of its name. -/
theorem get?_eq_some_iff {m : NameMap α} (h : m.IsDistinct) {name : String} {value : α} :
    m.get? name = some value ↔ ∃ e ∈ m.entries, equalFold e.1 name = true ∧ e.2 = value := by
  refine ⟨mem_of_get?_eq_some, ?_⟩
  rintro ⟨e, he, hn, rfl⟩
  obtain ⟨pre, post, hm⟩ := List.append_of_mem he
  rw [IsDistinct, hm, List.pairwise_append] at h
  have hfind : m.entries.find? (fun x => equalFold x.1 name) = some e := by
    refine List.find?_eq_some_iff_append.mpr ⟨hn, pre, post, hm, fun x hx => ?_⟩
    -- An entry before it with this name would have its name up to case.
    by_contra hxn
    have hxe := h.2.2 x hx e List.mem_cons_self
    rw [equalFold_trans (by simpa using hxn) (by rw [equalFold_comm]; exact hn)] at hxe
    cases hxe
  rw [get?, find?, hfind, Option.map_some]

/-- With distinct names every entry stays at its place when another name, or its own, is given a
value. -/
theorem getElem?_entries_update {m : NameMap α} (h : m.IsDistinct) (name : String)
    (f : Option α → α) {i : ℕ} {e : String × α} (he : m.entries[i]? = some e) :
    (m.update name f).entries[i]? =
      some (e.1, if equalFold e.1 name then f (some e.2) else e.2) := by
  unfold IsDistinct at h
  rw [update]
  generalize m.entries = es at h he ⊢
  induction es generalizing i with
  | nil => simp at he
  | cons x es ih =>
    obtain ⟨hx, hes⟩ := List.pairwise_cons.mp h
    rw [updateEntries]
    cases i with
    | zero =>
      obtain rfl : x = e := by simpa using he
      split <;> simp_all
    | succ i =>
      rw [List.getElem?_cons_succ] at he
      split
      · rename_i hn
        -- The name is that of the first entry, so it is not that of this one.
        have hne : ¬ equalFold e.1 name = true := by
          intro hen
          have hxe := hx e (List.mem_of_getElem? he)
          rw [equalFold_trans hn (by rw [equalFold_comm]; exact hen)] at hxe
          cases hxe
        rw [List.getElem?_cons_succ, he, if_neg hne]
      · rw [List.getElem?_cons_succ]
        exact ih hes he

/-- Names that are equal up to case have the same value. -/
theorem get?_congr (m : NameMap α) {name name' : String} (h : equalFold name name' = true) :
    m.get? name = m.get? name' := by
  have e : (fun e : String × α => equalFold e.1 name) = fun e => equalFold e.1 name' := by
    funext e
    rw [equalFold, equalFold, equalFold_iff.mp h]
  rw [get?, get?, find?, find?, e]

/-! ## Names put together -/

/-- Names with one more at the end, unless it is there in some case of its letters. -/
def addName (names : List String) (name : String) : List String :=
  if names.any (equalFold · name) then names else names ++ [name]

/-- Names, and after them those of others that are not there in some case of their letters. -/
def joinNames (names others : List String) : List String :=
  names ++ others.filter fun name => !names.any (equalFold · name)

theorem keys_update_eq (m : NameMap α) (name : String) (f : Option α → α) :
    (m.update name f).keys = addName m.keys name :=
  keys_update m name f

theorem any_equalFold_congr {a b : String} (names : List String) (h : equalFold a b = true) :
    names.any (equalFold · a) = names.any (equalFold · b) := by
  simp only [equalFold, equalFold_iff.mp h]

/-- A name that is added to the others is added at the end of all names. -/
theorem addName_joinNames (names others : List String) (name : String) :
    addName (joinNames names others) name = joinNames names (addName others name) := by
  unfold addName joinNames
  cases hn : names.any (equalFold · name) with
  | true => by_cases ho : others.any (equalFold · name) = true <;> simp [hn, ho]
  | false =>
    -- The others that are left out are no spelling of the name, which is not among the names.
    have hf : (others.filter fun n => !names.any (equalFold · n)).any (equalFold · name) =
        others.any (equalFold · name) := by
      rw [List.any_filter]
      congr 1
      funext other
      cases he : equalFold other name with
      | true => simp [any_equalFold_congr names he, hn]
      | false => simp
    simp only [List.any_append, hn, hf, Bool.false_or]
    split
    · rfl
    · simp [hn]

end NameMap

end StackScript
