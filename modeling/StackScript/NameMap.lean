import StackScript.Text.Case

/-!
# Maps from names

Ordered maps whose keys are names compared up to the case of ASCII letters. A key keeps the place
and the spelling that it came with.

* `NameMap.update` changes the value of a name or appends it; `get?_update_self` and
  `get?_update_of_ne` say what it does to look-ups, `keys_update` what it does to the keys.
-/

namespace StackScript

open Text

/-- An ordered map from names. -/
structure NameMap (α : Type) where
  entries : List (String × α) := []
  deriving DecidableEq, Repr

namespace NameMap

variable {α : Type}

/-- The first entry of a name, as spelled there. -/
def find? (m : NameMap α) (name : String) : Option (String × α) :=
  m.entries.find? fun e => equalFold e.1 name

/-- The value of a name. -/
def get? (m : NameMap α) (name : String) : Option α := (m.find? name).map Prod.snd

/-- The names as spelled, in order. -/
def keys (m : NameMap α) : List String := m.entries.map Prod.fst

/-- The entries with the value of a name changed, or with a new entry at the end. -/
def updateEntries (name : String) (f : Option α → α) : List (String × α) → List (String × α)
  | [] => [(name, f none)]
  | e :: es =>
    if equalFold e.1 name then (e.1, f (some e.2)) :: es else e :: updateEntries name f es

/-- Changes the value of a name; a new name comes last. -/
def update (m : NameMap α) (name : String) (f : Option α → α) : NameMap α :=
  ⟨updateEntries name f m.entries⟩

/-- Gives a name a value. -/
def insert (m : NameMap α) (name : String) (value : α) : NameMap α := m.update name fun _ => value

private theorem find?_updateEntries_self (name name' : String) (f : Option α → α)
    (h : equalFold name name' = true) (es : List (String × α)) :
    ((updateEntries name f es).find? fun e => equalFold e.1 name').map Prod.snd =
      some (f ((es.find? fun e => equalFold e.1 name).map Prod.snd)) := by
  induction es with
  | nil => simp [updateEntries, h]
  | cons e es ih =>
    rw [updateEntries]
    by_cases he : equalFold e.1 name = true
    · simp [he, equalFold_trans he h]
    · have he' : equalFold e.1 name' ≠ true := fun h' =>
        he (equalFold_trans h' (by rw [equalFold_comm]; exact h))
      simp [he, he', ih]

private theorem find?_updateEntries_of_ne (name name' : String) (f : Option α → α)
    (h : equalFold name name' = false) (es : List (String × α)) :
    ((updateEntries name f es).find? fun e => equalFold e.1 name') =
      es.find? fun e => equalFold e.1 name' := by
  induction es with
  | nil => simp [updateEntries, h]
  | cons e es ih =>
    rw [updateEntries]
    by_cases he : equalFold e.1 name = true
    · have he' : equalFold e.1 name' ≠ true := fun h' => by
        rw [equalFold_trans (by rw [equalFold_comm]; exact he) h'] at h
        cases h
      simp [he, he']
    · simp [he, List.find?_cons, ih]

/-- After an update a name has the new value, in every spelling. -/
theorem get?_update_self (m : NameMap α) {name name' : String} (f : Option α → α)
    (h : equalFold name name' = true) : (m.update name f).get? name' = some (f (m.get? name)) :=
  find?_updateEntries_self name name' f h m.entries

/-- An update leaves other names alone. -/
theorem get?_update_of_ne (m : NameMap α) {name name' : String} (f : Option α → α)
    (h : equalFold name name' = false) : (m.update name f).get? name' = m.get? name' := by
  unfold get? find? update
  rw [find?_updateEntries_of_ne name name' f h]

private theorem map_fst_updateEntries (name : String) (f : Option α → α)
    (es : List (String × α)) :
    (updateEntries name f es).map Prod.fst =
      if (es.map Prod.fst).any (equalFold · name) then es.map Prod.fst
      else es.map Prod.fst ++ [name] := by
  induction es with
  | nil => simp [updateEntries]
  | cons e es ih =>
    by_cases he : equalFold e.1 name = true
    · simp [updateEntries, he]
    · rw [updateEntries, if_neg he, List.map_cons, ih]
      by_cases ha : (es.map Prod.fst).any (equalFold · name) = true
      · simp [he, ha]
      · simp [he, ha]

/-- An update keeps the keys, or appends the name. -/
theorem keys_update (m : NameMap α) (name : String) (f : Option α → α) :
    (m.update name f).keys =
      if m.keys.any (equalFold · name) then m.keys else m.keys ++ [name] :=
  map_fst_updateEntries name f m.entries

end NameMap

end StackScript
