import StackScript.Proofs.ArrayStore.Positions
import StackScript.Proofs.Config.Read
import StackScript.Proofs.Host.Called
import StackScript.Proofs.Host.Interning
import StackScript.Proofs.Setting.Frame

/-!
# The contents of a settings file in an array

A script is handed a section of a settings file as a new map, and the headings of a file as a new
list. The texts go through the table of texts, and their handles into the array.

* `Filling` is the invariant while an array is filled: nothing but it and the table of texts has
  changed.
* `filling_withSettings`, `filling_withTexts`: the map and the list hold the texts, in order. No
  entry of the map replaces another, since two keys of a section are different texts and so have
  different handles.
* `sections_of_file` is the statement for calls.
-/

namespace StackScript

namespace Machine

variable {start m m' : Machine} {id : Int32} {a b : ValueArray}

/-! ## Texts in the table -/

theorem grows_interned (m : Machine) (text : String) : Grows m (m.interned text).1 := by
  unfold interned
  split
  · exact .refl m
  · simp [Grows]

theorem Grows.textNamed? (h : Grows m m') {v : Value} {text : String}
    (hv : m.textNamed? v = some text) : m'.textNamed? v = some text := by
  cases v with
  | string handle => exact h.text? hv
  | int n | float x | pointer address => cases hv

theorem hasHandle_of_size_interned {text : String}
    (h : (m.interned text).1.strings.size < UInt32.size) : m.HasHandle text := by
  unfold HasHandle
  unfold interned at h
  cases hi : m.strings.idxOf? text with
  | some i =>
    rw [hi] at h
    obtain ⟨hlt, -⟩ := Array.getElem?_eq_some_iff.mp (getElem?_of_idxOf? hi)
    exact Nat.lt_trans hlt h
  | none =>
    rw [hi] at h
    exact Nat.lt_of_succ_lt (by simpa using h)

theorem grows_foldl {α : Type} {f : Machine → α → Machine} (h : ∀ m x, Grows m (f m x))
    (xs : List α) (m : Machine) : Grows m (xs.foldl f m) := by
  induction xs generalizing m with
  | nil => exact .refl m
  | cons x xs ih => exact (h m x).trans (ih (f m x))

theorem size_interned_le (m : Machine) (text : String) :
    (m.interned text).1.strings.size ≤ m.strings.size + 1 := by
  unfold interned
  split
  · exact Nat.le_succ _
  · exact Nat.le_of_eq (Array.size_push text)

theorem size_foldl_le {α : Type} {f : Machine → α → Machine} {k : Nat}
    (h : ∀ m x, (f m x).strings.size ≤ m.strings.size + k) (xs : List α) (m : Machine) :
    (xs.foldl f m).strings.size ≤ m.strings.size + k * xs.length := by
  induction xs generalizing m with
  | nil => exact Nat.le_refl _
  | cons x xs ih =>
    have hx := h m x
    have hxs := ih (f m x)
    rw [List.foldl_cons, List.length_cons, Nat.mul_succ]
    omega

/-! ## Filling an array -/

/-- An array is being filled: since the start only it and the table of texts have changed, and the
table has grown. -/
structure Filling (start : Machine) (id : Int32) (a : ValueArray) (m : Machine) : Prop where
  frame : ∃ strings arrays, m = { start with strings, arrays }
  grows : Grows start m
  array : m.arrays.get? id = some a
  others : ∀ id', id' ≠ id → m.arrays.get? id' = start.arrays.get? id'

/-- A new array has a number that no array had. -/
theorem filling_create (length : Int32) (hm : m.arrays.count < 2 ^ 31 - 2)
    (ha : ValueArray.create? length = some a) :
    m.arrays.get? (m.arrays.create length).2 = none ∧
      Filling m (m.arrays.create length).2 a
        { m with arrays := (m.arrays.create length).1 } := by
  have hc : m.arrays.create length =
      (⟨m.arrays.arrays.push a⟩, Int32.ofNat (m.arrays.count + 1)) := by
    simp only [ArrayStore.create, ha]
  have hid : ArrayStore.slot? (Int32.ofNat (m.arrays.count + 1)) = some m.arrays.count := by
    rw [ArrayStore.slot?_eq, ArrayStore.toInt_ofNat_succ (by omega), if_pos (by omega)]
    simp
  rw [hc]
  refine ⟨?_, ⟨m.strings, _, rfl⟩, .refl m, ?_, fun id' hne => ?_⟩
  · rw [ArrayStore.get?, hid, Option.bind_some]
    exact Array.getElem?_eq_none (Nat.le_refl _)
  · rw [ArrayStore.get?, hid, Option.bind_some]
    exact Array.getElem?_push_size
  · have hs := ArrayStore.slot?_ne (Ne.symm hne) (by rw [hid]; rfl)
    rw [hid] at hs
    rw [ArrayStore.get?, ArrayStore.get?]
    cases hi : ArrayStore.slot? id' with
    | none => rfl
    | some i =>
      rw [hi] at hs
      have hne : i ≠ m.arrays.arrays.size := fun e => hs (by rw [e]; rfl)
      rw [Option.bind_some, Option.bind_some, Array.getElem?_push, if_neg hne]

theorem Filling.interned (h : Filling start id a m) (text : String) :
    Filling start id a (m.interned text).1 := by
  obtain ⟨strings, arrays, rfl⟩ := h.frame
  obtain ⟨strings', hi⟩ := exists_interned_eq { start with strings, arrays } text
  have hg := grows_interned { start with strings, arrays } text
  rw [hi] at hg ⊢
  exact ⟨⟨strings', arrays, rfl⟩, h.grows.trans hg, h.array, h.others⟩

theorem Filling.set (h : Filling start id a m) {key value : Value}
    (hb : a.set? key value = some b) :
    Filling start id b { m with arrays := m.arrays.set id key value } where
  frame := by
    obtain ⟨strings, arrays, rfl⟩ := h.frame
    exact ⟨strings, _, rfl⟩
  grows := h.grows
  array := ArrayStore.get?_set_of_set? h.array hb
  others id' hne := (ArrayStore.get?_set_of_id_ne (Ne.symm hne) key value).trans (h.others id' hne)

/-! ## Values and what they name -/

/-- Whether a value names a text. -/
def NamesText (m : Machine) (v : Value) (text : String) : Prop := m.textNamed? v = some text

/-- Whether the key and the value of an entry name those of a setting. -/
def NamesSetting (m : Machine) (e : Value × Value) (setting : String × String) : Prop :=
  m.NamesText e.1 setting.1 ∧ m.NamesText e.2 setting.2

theorem Grows.namesSetting (h : Grows m m') {e : Value × Value} {setting : String × String}
    (he : m.NamesSetting e setting) : m'.NamesSetting e setting :=
  he.imp h.textNamed? h.textNamed?

theorem texts_keys {es : List (Value × Value)} {settings : List (String × String)}
    (h : List.Forall₂ m.NamesSetting es settings) :
    es.map (fun e => m.textNamed? e.1) = settings.map fun setting => some setting.1 := by
  have heq : List.Forall₂ (· = ·) (es.map fun e => m.textNamed? e.1)
      (settings.map fun setting => some setting.1) :=
    List.forall₂_map_left_iff.mpr (List.forall₂_map_right_iff.mpr (h.imp fun _ _ he => he.1))
  rwa [List.forall₂_eq_eq_eq] at heq

end Machine

open Machine

namespace Operation

variable {start m m' : Machine} {id : Int32} {stack : List Value}

/-! ## Maps of settings -/

theorem grows_withSetting (id : Int32) (m : Machine) (setting : String × String) :
    Grows m (withSetting id m setting) :=
  (grows_interned m setting.1).trans (grows_interned _ setting.2)

theorem size_withSetting_le (id : Int32) (m : Machine) (setting : String × String) :
    (withSetting id m setting).strings.size ≤ m.strings.size + 2 :=
  (size_interned_le _ setting.2).trans (Nat.succ_le_succ (size_interned_le m setting.1))

/-- A setting with a new key becomes the last entry. -/
theorem filling_withSetting {es : List (Value × Value)} {done : List (String × String)}
    {setting : String × String} (h : Filling start id (.map es) m)
    (hn : List.Forall₂ m.NamesSetting es done) (hnew : setting.1 ∉ done.map Prod.fst)
    (hs : (withSetting id m setting).strings.size < UInt32.size) :
    ∃ e, Filling start id (.map (es ++ [e])) (withSetting id m setting) ∧
      List.Forall₂ (withSetting id m setting).NamesSetting (es ++ [e]) (done ++ [setting]) := by
  let p := m.interned setting.1
  let q := p.1.interned setting.2
  have hq := grows_interned p.1 setting.2
  have hhp : m.HasHandle setting.1 :=
    hasHandle_of_size_interned (Nat.lt_of_le_of_lt hq.size_le hs)
  have hhq : p.1.HasHandle setting.2 := hasHandle_of_size_interned hs
  have hkey : q.1.textNamed? p.2 = some setting.1 := hq.textNamed? (textNamed?_interned hhp)
  have hvalue : q.1.textNamed? q.2 = some setting.2 := textNamed?_interned hhq
  have hg : Grows m q.1 := (grows_interned m setting.1).trans hq
  have hn' : List.Forall₂ q.1.NamesSetting es done := hn.imp fun _ _ => hg.namesSetting
  -- A handle names one text only, so a new text has a new handle.
  have hk : p.2 ∉ es.map Prod.fst := by
    intro hmem
    obtain ⟨e, he, hek⟩ := List.mem_map.mp hmem
    have hmem' := List.mem_map_of_mem (f := fun e => q.1.textNamed? e.1) he
    rw [texts_keys hn', hek, hkey] at hmem'
    obtain ⟨old, hold, heq⟩ := List.mem_map.mp hmem'
    exact hnew (List.mem_map.mpr ⟨old, hold, Option.some.inj heq⟩)
  have hset : (ValueArray.map es).set? p.2 q.2 = some (.map (es ++ [(p.2, q.2)])) := by
    rw [ValueArray.set?, ValueArray.setEntry_of_notMem hk]
  refine ⟨(p.2, q.2), ((h.interned setting.1).interned setting.2).set hset, ?_⟩
  exact List.rel_append hn' (.cons ⟨hkey, hvalue⟩ .nil)

/-- Settings with different new keys become the last entries, in order. -/
theorem filling_withSettings {es : List (Value × Value)} {done settings : List (String × String)}
    (h : Filling start id (.map es) m) (hn : List.Forall₂ m.NamesSetting es done)
    (hd : ((done ++ settings).map Prod.fst).Nodup)
    (hs : (settings.foldl (withSetting id) m).strings.size < UInt32.size) :
    ∃ es', Filling start id (.map es') (settings.foldl (withSetting id) m) ∧
      List.Forall₂ (settings.foldl (withSetting id) m).NamesSetting es' (done ++ settings) := by
  induction settings generalizing m es done with
  | nil => exact ⟨es, h, by simpa using hn⟩
  | cons setting settings ih =>
    have hg : Grows (withSetting id m setting) _ := grows_foldl (grows_withSetting id) settings _
    have hnew : setting.1 ∉ done.map Prod.fst := by
      rw [List.map_append, List.map_cons] at hd
      exact fun hmem => (List.nodup_append.mp hd).2.2 _ hmem _ List.mem_cons_self rfl
    obtain ⟨e, h', hn'⟩ := filling_withSetting h hn hnew (Nat.lt_of_le_of_lt hg.size_le hs)
    rw [List.append_cons] at hd ⊢
    exact ih h' hn' hd hs

/-! ## Lists of texts -/

/-- The machine with a text as the element of a list at an index. -/
def withText (id : Int32) (m : Machine) (item : String × Nat) : Machine :=
  let (m, value) := m.interned item.1
  { m with arrays := m.arrays.set id (.int (Int32.ofNat item.2)) value }

theorem grows_withText (id : Int32) (m : Machine) (item : String × Nat) :
    Grows m (withText id m item) := grows_interned m item.1

theorem size_withText_le (id : Int32) (m : Machine) (item : String × Nat) :
    (withText id m item).strings.size ≤ m.strings.size + 1 := size_interned_le m item.1

/-- A list takes a value at an index that is not too large. -/
theorem set?_list_ofNat {items : Array Value} {i : Nat} (hi : i < ValueArray.maxList)
    (value : Value) : (ValueArray.list items).set? (.int (Int32.ofNat i)) value =
      some (.list (ValueArray.setItem items i value)) := by
  have hindex : ValueArray.index? (.int (Int32.ofNat i)) = some i := by
    rw [index?_eq_some_iff]
    simp [truncatesTo, Value.asInt, ValueArray.toInt_ofNat_of_lt hi (Nat.le_refl _)]
  simp only [ValueArray.set?, hindex, if_pos hi]

theorem setItem_append_cons (vs ws : List Value) (w value : Value) :
    ValueArray.setItem (vs ++ w :: ws).toArray vs.length value =
      (vs ++ value :: ws).toArray := by
  have hlt : vs.length < (vs ++ w :: ws).toArray.size := by simp
  rw [ValueArray.setItem, dif_pos hlt, List.set_toArray, List.set_append_right _ _ (Nat.le_refl _),
    Nat.sub_self, List.set_cons_zero]

/-- A text becomes the first of the elements that are still blank. -/
theorem filling_withText {vs ws : List Value} {w : Value} {done : List String} {text : String}
    (h : Filling start id (.list (vs ++ w :: ws).toArray) m)
    (hn : List.Forall₂ m.NamesText vs done) (hl : vs.length < ValueArray.maxList)
    (hs : (withText id m (text, vs.length)).strings.size < UInt32.size) :
    ∃ v, Filling start id (.list (vs ++ v :: ws).toArray) (withText id m (text, vs.length)) ∧
      List.Forall₂ (withText id m (text, vs.length)).NamesText (vs ++ [v]) (done ++ [text]) := by
  let p := m.interned text
  have hvalue : p.1.NamesText p.2 text := textNamed?_interned (hasHandle_of_size_interned hs)
  have hn' : List.Forall₂ p.1.NamesText vs done :=
    hn.imp fun _ _ => (grows_interned m text).textNamed?
  have hset : (ValueArray.list (vs ++ w :: ws).toArray).set? (.int (Int32.ofNat vs.length)) p.2 =
      some (.list (vs ++ p.2 :: ws).toArray) := by
    rw [set?_list_ofNat hl, setItem_append_cons]
  exact ⟨p.2, (h.interned text).set hset, List.rel_append hn' (.cons hvalue .nil)⟩

/-- Texts become the elements of a list that has room for them, in order. -/
theorem filling_withTexts (vs : List Value) {ws : List Value} {done texts : List String}
    (h : Filling start id (.list (vs ++ ws).toArray) m)
    (hn : List.Forall₂ m.NamesText vs done) (hw : ws.length = texts.length)
    (hl : vs.length + texts.length ≤ ValueArray.maxList)
    (hs : ((texts.zipIdx vs.length).foldl (withText id) m).strings.size < UInt32.size) :
    ∃ vs', Filling start id (.list vs'.toArray) ((texts.zipIdx vs.length).foldl (withText id) m) ∧
      List.Forall₂ ((texts.zipIdx vs.length).foldl (withText id) m).NamesText vs'
        (done ++ texts) := by
  induction texts generalizing m vs ws done with
  | nil =>
    obtain rfl := List.length_eq_zero_iff.mp hw
    exact ⟨vs, by simpa using h, by simpa using hn⟩
  | cons text texts ih =>
    obtain ⟨w, ws, rfl⟩ := List.exists_cons_of_length_eq_add_one hw
    rw [List.length_cons, List.length_cons, Nat.add_right_cancel_iff] at hw
    rw [List.length_cons] at hl
    rw [List.zipIdx_cons, List.foldl_cons] at hs ⊢
    have hg : Grows (withText id m (text, vs.length)) _ :=
      grows_foldl (grows_withText id) (texts.zipIdx (vs.length + 1)) _
    obtain ⟨v, h', hn'⟩ := filling_withText h hn (by omega) (Nat.lt_of_le_of_lt hg.size_le hs)
    have hlength : (vs ++ [v]).length = vs.length + 1 := List.length_append
    rw [List.append_cons] at h' ⊢
    rw [← hlength] at hs ⊢
    exact ih _ h' hn' hw (by omega) hs

/-! ## What the operations do -/

/-- The headings of a file, none if the file cannot be read. -/
def headingsOf (m : Machine) (file : String) : List String :=
  match m.settings.load m.disk file with
  | .ok c => c.headings
  | .error _ => []

theorem headingsOf_eq (m : Machine) (file : String) :
    headingsOf m file = ((m.settings.load m.disk file).toOption.getD {}).headings := by
  unfold headingsOf
  cases m.settings.load m.disk file <;> rfl

theorem settingsUnder_of_load {file : String} {c : Config}
    (h : m.settings.load m.disk file = .ok c) (heading : String) :
    settingsUnder m file heading = ((c.sections.get? heading).getD {}).entries := by
  rw [settingsUnder, h]

theorem headingsOf_of_load {file : String} {c : Config}
    (h : m.settings.load m.disk file = .ok c) : headingsOf m file = c.headings := by
  rw [headingsOf, h]

/-- Two keys of a section are different texts, since they differ in more than the case of
letters. -/
theorem nodup_settingsUnder (m : Machine) (file heading : String) :
    ((settingsUnder m file heading).map Prod.fst).Nodup := by
  cases hl : m.settings.load m.disk file with
  | error e =>
    rw [settingsUnder, hl]
    exact List.nodup_nil
  | ok c =>
    obtain ⟨text, rfl⟩ := SettingStore.exists_parse_of_locate (SettingStore.load_eq_ok_iff.mp hl)
    rw [settingsUnder_of_load hl]
    cases hg : (Config.parse text).sections.get? heading with
    | none => exact List.nodup_nil
    | some settings =>
      obtain ⟨e, he, -, rfl⟩ := NameMap.mem_of_get?_eq_some hg
      refine List.pairwise_map.mpr (((Config.isDistinct_parse text).setting e he).imp ?_)
      rintro x y hxy hfst
      rw [hfst, Text.equalFold_refl] at hxy
      cases hxy

theorem create?_ofNat {n : Nat} (hn : n ≤ ValueArray.maxList) :
    ValueArray.create? (Int32.ofNat n) =
      some (.list (List.replicate n ValueArray.blank).toArray) := by
  have hmax : ValueArray.maxList < 2 ^ 31 := by decide
  have hi : (Int32.ofNat n).toInt = n := Int32.toInt_ofNat_of_lt (by omega)
  have hneg : ¬ Int32.ofNat n < 0 := by
    rw [Int32.lt_iff_toInt_lt, hi]
    exact Int.not_lt.mpr (Int.natCast_nonneg n)
  rw [ValueArray.create?, if_neg hneg, hi, Int.toNat_natCast, if_pos hn, List.toArray_replicate]

theorem storeTexts_run (id : Int32) (i : Nat) (texts : List String) :
    storeTexts id i texts (m.on stack) =
      .ok () (((texts.zipIdx i).foldl (withText id) m).on stack) := by
  induction texts generalizing m i with
  | nil => rfl
  | cons text texts ih =>
    rw [List.zipIdx_cons, List.foldl_cons, ← ih]
    simp only [storeTexts, Bind.bind, EStateM.bind, intern_eq, interned_on]
    rfl

theorem capacity_withTexts (id : Int32) (items : List (String × Nat)) (m : Machine) :
    (items.foldl (withText id) m).capacity = m.capacity := by
  induction items generalizing m with
  | nil => rfl
  | cons item items ih =>
    rw [List.foldl_cons, ih]
    exact capacity_interned m item.1

/-- The machine with texts in a new list. -/
def afterTexts (m : Machine) (texts : List String) : Machine :=
  texts.zipIdx.foldl (withText (m.arrays.create (Int32.ofNat texts.length)).2)
    { m with arrays := (m.arrays.create (Int32.ofNat texts.length)).1 }

/-- Texts enter at most themselves in the table. -/
theorem size_afterTexts_le (m : Machine) (texts : List String) :
    (afterTexts m texts).strings.size ≤ m.strings.size + texts.length := by
  have h : (afterTexts m texts).strings.size ≤ m.strings.size + 1 * texts.zipIdx.length :=
    size_foldl_le (size_withText_le _) _ _
  rwa [List.length_zipIdx, Nat.one_mul] at h

theorem pushTexts_run (texts : List String) (hr : stack.length < m.capacity) :
    pushTexts texts (m.on stack) =
      .ok () ((afterTexts m texts).on
        (.int (m.arrays.create (Int32.ofNat texts.length)).2 :: stack)) := by
  rw [pushTexts, createArray_run]
  simp only [Bind.bind, EStateM.bind, storeTexts_run]
  exact push_run _ (by rwa [capacity_withTexts])

/-- Texts that are put in a new list are its elements. -/
theorem filling_afterTexts (hm : m.arrays.count < 2 ^ 31 - 2) {texts : List String}
    (hl : texts.length ≤ ValueArray.maxList)
    (hs : (afterTexts m texts).strings.size < UInt32.size) :
    m.arrays.get? (m.arrays.create (Int32.ofNat texts.length)).2 = none ∧
      ∃ vs : List Value, Filling m (m.arrays.create (Int32.ofNat texts.length)).2
          (.list vs.toArray) (afterTexts m texts) ∧
        List.Forall₂ (afterTexts m texts).NamesText vs texts := by
  obtain ⟨hnew, hfill⟩ := filling_create _ hm (create?_ofNat hl)
  exact ⟨hnew, filling_withTexts [] hfill .nil List.length_replicate (by simpa using hl) hs⟩

/-- The machine with a section in a new map. -/
def afterSection (m : Machine) (file heading : String) : Machine :=
  (settingsUnder m file heading).foldl (withSetting (m.arrays.create (-1)).2)
    { m with arrays := (m.arrays.create (-1)).1 }

/-- The machine with the headings of a file in a new list. -/
def afterSections (m : Machine) (file : String) : Machine :=
  let length := Int32.ofNat (headingsOf m file).length
  (headingsOf m file).zipIdx.foldl (withText (m.arrays.create length).2)
    { m with arrays := (m.arrays.create length).1 }

/-- A section enters at most its keys and its values in the table. -/
theorem size_afterSection_le (m : Machine) (file heading : String) :
    (afterSection m file heading).strings.size ≤
      m.strings.size + 2 * (settingsUnder m file heading).length :=
  size_foldl_le (size_withSetting_le _) _ _

theorem size_afterSections_le (m : Machine) (file : String) :
    (afterSections m file).strings.size ≤ m.strings.size + (headingsOf m file).length :=
  size_afterTexts_le m (headingsOf m file)

theorem runIniSection_run {file heading : Value} {f h : String} (hf : m.textNamed? file = some f)
    (hh : m.textNamed? heading = some h) (hr : stack.length < m.capacity) :
    iniSection.run 2 (m.on (heading :: file :: stack)) =
      .ok () ((afterSection m f h).on (.int (m.arrays.create (-1)).2 :: stack)) := by
  show runIniSection (m.on (heading :: file :: stack)) = _
  rw [runIniSection, popText_run hh, popText_run hf, createArray_run]
  exact storeSettings_run _ f h hr

theorem runIniSections_run {file : Value} {f : String} (hf : m.textNamed? file = some f)
    (hr : stack.length < m.capacity) :
    iniSections.run 1 (m.on (file :: stack)) =
      .ok () ((afterSections m f).on
        (.int (m.arrays.create (Int32.ofNat (headingsOf m f).length)).2 :: stack)) := by
  show runIniSections (m.on (file :: stack)) = _
  rw [runIniSections, popText_run hf]
  simp only [Bind.bind, EStateM.bind, settingsOf_eq, ← headingsOf_eq]
  exact pushTexts_run (headingsOf m f) hr

theorem filling_afterSection (hm : m.arrays.count < 2 ^ 31 - 2) (f h : String)
    (hs : (afterSection m f h).strings.size < UInt32.size) :
    m.arrays.get? (m.arrays.create (-1)).2 = none ∧
      ∃ es, Filling m (m.arrays.create (-1)).2 (.map es) (afterSection m f h) ∧
        List.Forall₂ (afterSection m f h).NamesSetting es (settingsUnder m f h) := by
  obtain ⟨hnew, hfill⟩ := filling_create (-1) hm (a := .map []) rfl
  exact ⟨hnew, filling_withSettings hfill .nil (nodup_settingsUnder m f h) hs⟩

theorem filling_afterSections (hm : m.arrays.count < 2 ^ 31 - 2) {f : String}
    (hl : (headingsOf m f).length ≤ ValueArray.maxList)
    (hs : (afterSections m f).strings.size < UInt32.size) :
    let id := (m.arrays.create (Int32.ofNat (headingsOf m f).length)).2
    m.arrays.get? id = none ∧
      ∃ vs : List Value, Filling m id (.list vs.toArray) (afterSections m f) ∧
        List.Forall₂ (afterSections m f).NamesText vs (headingsOf m f) :=
  filling_afterTexts hm hl hs

end Operation

namespace Machine

open Operation

variable {m m' : Machine} {below : List Value}

/-- A call is answered with an array: its number takes the place of the name and the arguments, and
no array had this number. Nothing else is changed but the table of texts, which has grown. -/
structure Answers (m : Machine) (below : List Value) (id : Int32) (a : ValueArray) (m' : Machine) :
    Prop where
  frame : ∃ strings arrays, m' = { m with stack := .int id :: below, strings, arrays }
  texts : Grows m m'
  new : m.arrays.get? id = none
  array : m'.arrays.get? id = some a
  others : ∀ id', id' ≠ id → m'.arrays.get? id' = m.arrays.get? id'

/-- An array that was filled after a name had entered the table. -/
theorem Filling.answers {text : String} {id : Int32} {a : ValueArray} {m₁ : Machine}
    (h : Filling (m.interned text).1 id a m₁) (hn : m.arrays.get? id = none)
    (below : List Value) : Answers m below id a (m₁.on (.int id :: below)) := by
  have hg := grows_interned m text
  obtain ⟨strings, hi⟩ := exists_interned_eq m text
  rw [hi] at h hg
  obtain ⟨strings, arrays, rfl⟩ := h.frame
  exact ⟨⟨strings, arrays, rfl⟩, hg.trans h.grows, hn, h.array, h.others⟩

theorem settingsUnder_interned (m : Machine) (text file heading : String) :
    settingsUnder (m.interned text).1 file heading = settingsUnder m file heading := by
  obtain ⟨strings, hi⟩ := exists_interned_eq m text
  rw [hi]
  rfl

theorem headingsOf_interned (m : Machine) (text file : String) :
    headingsOf (m.interned text).1 file = headingsOf m file := by
  obtain ⟨strings, hi⟩ := exists_interned_eq m text
  rw [hi]
  rfl

theorem arrays_interned (m : Machine) (text : String) :
    (m.interned text).1.arrays = m.arrays := by
  obtain ⟨strings, hi⟩ := exists_interned_eq m text
  rw [hi]

theorem length_lt_of_room_on {n : Nat} (h : n + 1 ≤ (m.on below).room) :
    below.length < m.capacity := by
  rw [room, on_depth, on_capacity] at h
  omega

section Calls

variable {file heading : Value} {f h : String}

theorem runIniSection_interned (hf : m.textNamed? file = some f)
    (hh : m.textNamed? heading = some h) (text : String) {stack : List Value}
    (hr : stack.length < m.capacity) :
    iniSection.run 2 ((m.interned text).1.on (heading :: file :: stack)) =
      .ok () ((afterSection (m.interned text).1 f h).on
        (.int (m.arrays.create (-1)).2 :: stack)) := by
  rw [runIniSection_run (textNamed?_interned_of_textNamed? text hf)
    (textNamed?_interned_of_textNamed? text hh) (by rwa [capacity_interned]), arrays_interned]

theorem runIniSections_interned (hf : m.textNamed? file = some f) (text : String)
    {stack : List Value} (hr : stack.length < m.capacity) :
    iniSections.run 1 ((m.interned text).1.on (file :: stack)) =
      .ok () ((afterSections (m.interned text).1 f).on
        (.int (m.arrays.create (Int32.ofNat (headingsOf m f).length)).2 :: stack)) := by
  rw [runIniSections_run (textNamed?_interned_of_textNamed? text hf) (by rwa [capacity_interned]),
    arrays_interned, headingsOf_interned]

/-- What a call for a section leaves. -/
theorem Called.eq_afterSection (hf : m.textNamed? file = some f)
    (hh : m.textNamed? heading = some h) (hs : m.strings.size < UInt32.size)
    (hcall : Called .iniSection [file, heading] m m' below) :
    m' = (afterSection (m.interned iniSection.name).1 f h).on
      (.int (m.arrays.create (-1)).2 :: below) := by
  obtain ⟨hr, hrun⟩ := hcall.run_eq_ok rfl (hasHandle_of_lt _ hs)
  cases hrun.symm.trans (runIniSection_interned hf hh _ (length_lt_of_room_on hr))
  rfl

/-- What a call for the headings of a file leaves. -/
theorem Called.eq_afterSections (hf : m.textNamed? file = some f)
    (hs : m.strings.size < UInt32.size) (hcall : Called .iniSections [file] m m' below) :
    m' = (afterSections (m.interned iniSections.name).1 f).on
      (.int (m.arrays.create (Int32.ofNat (headingsOf m f).length)).2 :: below) := by
  obtain ⟨hr, hrun⟩ := hcall.run_eq_ok rfl (hasHandle_of_lt _ hs)
  cases hrun.symm.trans (runIniSections_interned hf _ (length_lt_of_room_on hr))
  rfl

/-- The call for a section is answered with a map of its settings. -/
theorem answers_iniSection (hf : m.textNamed? file = some f) (hh : m.textNamed? heading = some h)
    (hm : m.arrays.count < 2 ^ 31 - 2) (hs : m.strings.size < UInt32.size)
    (hcall : Called .iniSection [file, heading] m m' below)
    (hs' : m'.strings.size < UInt32.size) :
    ∃ id es, m.Answers below id (.map es) m' ∧
      List.Forall₂ m'.NamesSetting es (settingsUnder m f h) := by
  rw [hcall.eq_afterSection hf hh hs] at hs' ⊢
  have hfilled := filling_afterSection (m := (m.interned iniSection.name).1)
    (by rwa [arrays_interned]) f h hs'
  rw [settingsUnder_interned, arrays_interned] at hfilled
  obtain ⟨hnew, es, hfill, hnames⟩ := hfilled
  exact ⟨_, es, hfill.answers hnew below, hnames⟩

/-- The call for the headings of a file is answered with a list of them. -/
theorem answers_iniSections (hf : m.textNamed? file = some f)
    (hm : m.arrays.count < 2 ^ 31 - 2) (hs : m.strings.size < UInt32.size)
    (hl : (headingsOf m f).length ≤ ValueArray.maxList)
    (hcall : Called .iniSections [file] m m' below) (hs' : m'.strings.size < UInt32.size) :
    ∃ id vs, m.Answers below id (.list (List.toArray vs)) m' ∧
      List.Forall₂ m'.NamesText vs (headingsOf m f) := by
  rw [hcall.eq_afterSections hf hs] at hs' ⊢
  have hfilled := filling_afterSections (m := (m.interned iniSections.name).1) (f := f)
    (by rwa [arrays_interned]) (by rwa [headingsOf_interned]) hs'
  rw [headingsOf_interned, arrays_interned] at hfilled
  obtain ⟨hnew, vs, hfill, hnames⟩ := hfilled
  exact ⟨_, vs, hfill.answers hnew below, hnames⟩

end Calls

/-- In any state of a program that has numbers for arrays and handles for texts: the call for a
section of a file, and for the headings of a file, succeeds by name exactly if the program runs and
has room for the call. A call that succeeds, by name or by an opcode, is answered with a new map
whose keys and values name the settings of the section, or with a new list whose elements name the
headings, all in the order and the spelling of the file. They are empty if the file cannot be read
or has no such section. -/
theorem sections_of_file {m : Machine} {file : Value} {f : String}
    (hf : m.textNamed? file = some f) (hm : m.arrays.count < 2 ^ 31 - 2)
    (hs : m.strings.size < UInt32.size) :
    (∀ heading h, m.textNamed? heading = some h →
      ((∃ m', callNamed "get_ini_section" [file, heading] m = .ok () m') ↔
        m.stopped = none ∧ 2 < m.room) ∧
      ∀ m' below, Called .iniSection [file, heading] m m' below →
        m'.strings.size < UInt32.size →
        ∃ id es, m.Answers below id (.map es) m' ∧
          List.Forall₂ m'.NamesSetting es (settingsUnder m f h)) ∧
    (((∃ m', callNamed "get_ini_sections" [file] m = .ok () m') ↔
        m.stopped = none ∧ 1 < m.room) ∧
      ∀ m' below, Called .iniSections [file] m m' below →
        m'.strings.size < UInt32.size → (headingsOf m f).length ≤ ValueArray.maxList →
        ∃ id vs, m.Answers below id (.list (List.toArray vs)) m' ∧
          List.Forall₂ m'.NamesText vs (headingsOf m f)) := by
  have hhandle (op : Operation) : m.HasHandle op.name := hasHandle_of_lt op.name hs
  refine ⟨fun heading h hh => ⟨?_, fun m' below => answers_iniSection hf hh hm hs⟩, ?_,
    fun m' below hcall hs' hl => answers_iniSections hf hm hs hl hcall hs'⟩
  · exact exists_callNamed_iff .iniSection rfl (hhandle _) fun hr =>
      ⟨_, _, runIniSection_interned hf hh _ hr⟩
  · exact exists_callNamed_iff .iniSections rfl (hhandle _) fun hr =>
      ⟨_, _, runIniSections_interned hf _ hr⟩

/-- A section that is asked for in other letters, and the headings of a file. -/
theorem sections_of_file_letters :
    let d := ({} : Disk).put ["a"] "[Sec]\nB = 2\na=2;\n[x]\nb=\n".toUTF8
    let m : Machine := { capacity := 3, disk := d, strings := #["a", "sEC"] }
    (∃ m' id es, callNamed "get_ini_section" [.string 0, .string 1] m = .ok () m' ∧
      m.Answers [] id (.map es) m' ∧ List.Forall₂ m'.NamesSetting es [("B", "2"), ("a", "2")]) ∧
    ∃ m' id vs, callNamed "get_ini_sections" [.string 0] m = .ok () m' ∧
      m.Answers [] id (.list (List.toArray vs)) m' ∧ List.Forall₂ m'.NamesText vs ["Sec", "x"] := by
  intro d m
  have hl : d.IsFileAt "a" ["a"] := ⟨by cbv, by decide, by cbv⟩
  have hc := (SettingStore.readConfig?_of_contents hl (Disk.contents?_put_self _ _ _)).1 _ rfl
  have hload : m.settings.load m.disk "a" =
      .ok (Config.parse "[Sec]\nB = 2\na=2;\n[x]\nb=\n") := by
    rw [SettingStore.load_eq_ok_iff, SettingStore.snd_locate,
      SettingStore.fst_locate_of_base_none rfl]
    exact hc
  have hsettings : settingsUnder m "a" "sEC" = [("B", "2"), ("a", "2")] := by
    have hfold : Text.equalFold "sEC" "Sec" = true := by
      simp [Text.equalFold_iff, ← String.toList_inj, Config.toList_fold]
    rw [settingsUnder_of_load hload, NameMap.get?_congr _ hfold]
    decide +kernel
  have hheadings : headingsOf m "a" = ["Sec", "x"] := by
    rw [headingsOf_of_load hload]
    decide +kernel
  have hfile : m.textNamed? (.string 0) = some "a" := rfl
  have hheading : m.textNamed? (.string 1) = some "sEC" := rfl
  have hs : m.strings.size < UInt32.size := by decide
  obtain ⟨hsection, hcall, hsections⟩ :=
    sections_of_file hfile (by decide) hs
  obtain ⟨hcall', hsection⟩ := hsection _ _ hheading
  obtain ⟨m₁, h₁⟩ := hcall'.mpr ⟨rfl, by decide⟩
  obtain ⟨m₂, h₂⟩ := hcall.mpr ⟨rfl, by decide⟩
  have hname (op : Operation) : (m.interned op.name).1.strings.size ≤ 3 :=
    size_interned_le m op.name
  have hs₁ : m₁.strings.size < UInt32.size := by
    have hsize := size_afterSection_le (m.interned iniSection.name).1 "a" "sEC"
    rw [settingsUnder_interned, hsettings] at hsize
    rw [Called.eq_afterSection hfile hheading hs (.byName h₁)]
    exact Nat.lt_of_le_of_lt (hsize.trans (Nat.add_le_add_right (hname _) _)) (by decide)
  have hs₂ : m₂.strings.size < UInt32.size := by
    have hsize := size_afterSections_le (m.interned iniSections.name).1 "a"
    rw [headingsOf_interned, hheadings] at hsize
    rw [Called.eq_afterSections hfile hs (.byName h₂)]
    exact Nat.lt_of_le_of_lt (hsize.trans (Nat.add_le_add_right (hname _) _)) (by decide)
  rw [hsettings] at hsection
  rw [hheadings] at hsections
  obtain ⟨id₁, es, ha, hn⟩ := hsection m₁ [] (.byName h₁) hs₁
  obtain ⟨id₂, vs, ha', hn'⟩ := hsections m₂ [] (.byName h₂) hs₂ (by decide)
  exact ⟨⟨m₁, id₁, es, h₁, ha, hn⟩, m₂, id₂, vs, h₂, ha', hn'⟩

end Machine

end StackScript
