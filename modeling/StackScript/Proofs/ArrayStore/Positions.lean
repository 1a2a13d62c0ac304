import StackScript.Proofs.ArrayStore.History

/-!
# Positions of arrays

The entries of an array stand in an order, and a position names one of them. A list has its elements
at their indices, a map its keys in the order in which they came.

* `ValueArray.IsSound`: a list is not too long, and no key stands twice in a map. It holds of every
  array that a store comes to have (`ArrayStore.isSound_of_run`).
* `keyAt?_eq`: the key at a position is that of the entry there.
* `IsSound.get?_of_getElem?`, `exists_getElem?_entries`: looking up the key of an entry gives its
  value, and what is found under a key stands in an entry with this key; a list drops the fraction
  of the key first (`keyOf`).
* `IsSound.existsUnique_keyAt?`: what finds a value is the key at one position and no other.
* `IsSound.exists_set?`, `set?_of_get?_eq_none`: no position changes when a key is set that is
  there, and a new key of a map comes last.
-/

namespace StackScript

namespace ValueArray

variable {a b : ValueArray} {key value : Value}

/-- The keys of an array in order. -/
def keys (a : ValueArray) : List Value := a.entries.map Prod.fst

/-- The key under which an array looks for what is asked for: a list drops the fraction. -/
def keyOf : ValueArray → Value → Value
  | list _, key =>
    match key.asInt with
    | .ok n => .int n
    | .error _ => key
  | map _, key => key

/-- A list is not too long, and no key stands twice in a map. -/
def IsSound : ValueArray → Prop
  | list items => items.size ≤ maxList
  | map es => (es.map Prod.fst).Nodup

/-! ## Entries -/

theorem entries_list_getElem? (items : Array Value) (i : Nat) :
    (list items).entries[i]? = items[i]?.map fun v => (.int (Int32.ofNat i), v) := by
  simp only [entries, List.getElem?_map, List.getElem?_zipIdx, Nat.zero_add, Option.map_map,
    Array.getElem?_toList]
  rfl

theorem keys_list (items : Array Value) :
    (list items).keys = (List.range items.size).map fun i => .int (Int32.ofNat i) := by
  have hsnd : items.toList.zipIdx.map Prod.snd = List.range items.size := by
    rw [List.zipIdx_map_snd, List.range_eq_range', Array.length_toList]
  rw [keys, entries, ← hsnd, List.map_map, List.map_map]
  rfl

theorem length_entries (a : ValueArray) : a.entries.length = a.length := by
  cases a with
  | list items => simp [entries, length]
  | map es => rfl

theorem length_keys (a : ValueArray) : a.keys.length = a.length := by
  rw [keys, List.length_map, length_entries]

/-- An index of a list is a number of its own. -/
theorem toInt_ofNat_of_lt {i n : Nat} (hi : i < n) (hn : n ≤ maxList) :
    (Int32.ofNat i).toInt = i :=
  Int32.toInt_ofNat_of_lt (by rw [maxList] at hn; omega)

theorem IsSound.nodup_keys (ha : a.IsSound) : a.keys.Nodup := by
  cases a with
  | map es => exact ha
  | list items =>
    rw [keys_list]
    refine (List.nodup_map_iff_inj_on List.nodup_range).mpr fun i hi j hj h => ?_
    have hi' := toInt_ofNat_of_lt (List.mem_range.mp hi) ha
    have hj' := toInt_ofNat_of_lt (List.mem_range.mp hj) ha
    rw [Value.int.injEq] at h
    rw [h, hj'] at hi'
    exact Int.ofNat_inj.mp hi'.symm

theorem keys_getElem? (a : ValueArray) (i : Nat) : a.keys[i]? = a.entries[i]?.map Prod.fst :=
  List.getElem?_map

/-- The key at a position is that of the entry there. -/
theorem keyAt?_eq (a : ValueArray) (position : Int32) :
    a.keyAt? position = if position.toInt < 0 then none else a.keys[position.toInt.toNat]? := by
  have hneg : position < 0 ↔ position.toInt < 0 := Int32.lt_iff_toInt_lt
  unfold keyAt?
  by_cases h : position.toInt < 0
  · rw [if_pos h, if_pos (hneg.mpr h)]
  · rw [if_neg h, if_neg (mt hneg.mp h)]
    cases a with
    | map es => exact (keys_getElem? (map es) _).symm
    | list items =>
      have hself : Int32.ofNat position.toInt.toNat = position := by
        rw [← Int32.ofInt_eq_ofNat, Int.toNat_of_nonneg (by omega), Int32.ofInt_toInt]
      rw [keys_list, List.getElem?_map]
      by_cases hlt : position.toInt.toNat < items.size
      · rw [List.getElem?_range hlt, Option.map_some, hself]
        exact if_pos hlt
      · rw [List.getElem?_eq_none (by rw [List.length_range]; omega)]
        exact if_neg hlt

/-! ## Looking up -/

/-- Looking up the key of an entry gives its value. -/
theorem IsSound.get?_of_getElem? (ha : a.IsSound) {i : Nat}
    (h : a.entries[i]? = some (key, value)) : a.get? key = some value := by
  cases a with
  | list items =>
    rw [entries_list_getElem?] at h
    obtain ⟨v, hv, he⟩ := Option.map_eq_some_iff.mp h
    cases he
    have hi : i < items.size := (Array.getElem?_eq_some_iff.mp hv).1
    have hindex : index? (.int (Int32.ofNat i)) = some i :=
      index?_eq_some_iff.mpr (beq_iff_eq.mpr (toInt_ofNat_of_lt hi ha))
    rw [get?, hindex]
    exact hv
  | map es =>
    simp only [entries] at h
    simp only [get?]
    induction es generalizing i with
    | nil => cases h
    | cons e es ih =>
      obtain ⟨hfresh, hes⟩ := List.nodup_cons.mp ha
      cases i with
      | zero =>
        cases h
        simp
      | succ i =>
        have hmem : key ∈ es.map Prod.fst := List.mem_map.mpr ⟨_, List.mem_of_getElem? h, rfl⟩
        have hne : ¬ e.1 == key := fun he => hfresh (beq_iff_eq.mp he ▸ hmem)
        rw [List.find?_cons, eq_false_of_ne_true hne]
        exact ih hes h

/-- What is found under a key stands in an entry with this key. -/
theorem exists_getElem?_entries (h : a.get? key = some value) :
    ∃ i : Nat, a.entries[i]? = some (a.keyOf key, value) := by
  cases a with
  | list items =>
    obtain ⟨i, hi, hv⟩ := Option.bind_eq_some_iff.mp h
    refine ⟨i, ?_⟩
    rw [entries_list_getElem?, hv]
    have ht := index?_eq_some_iff.mp hi
    unfold truncatesTo at ht
    cases hn : key.asInt with
    | error e => simp [hn] at ht
    | ok n =>
      have hni : n.toInt = i := by simpa [hn] using ht
      have hself : Int32.ofNat i = n := by
        rw [← Int32.ofInt_eq_ofNat, ← hni, Int32.ofInt_toInt]
      simp [keyOf, hn, hself]
  | map es =>
    obtain ⟨⟨k, v⟩, he, rfl⟩ := Option.map_eq_some_iff.mp h
    obtain rfl : k = key := by simpa using List.find?_some he
    exact List.mem_iff_getElem?.mp (List.mem_of_find?_eq_some he)

/-! ## Positions as numbers -/

/-- There is a key at the positions below the length. -/
theorem isSome_keyAt?_iff (a : ValueArray) (position : Int32) :
    (a.keyAt? position).isSome ↔ 0 ≤ position.toInt ∧ position.toInt < a.length := by
  rw [keyAt?_eq, ← a.length_keys]
  split
  · simp only [Option.isSome_none, Bool.false_eq_true, false_iff]
    omega
  · rw [Option.isSome_iff_ne_none, ne_eq, List.getElem?_eq_none_iff]
    omega

/-- The index at which the key of a position stands. -/
theorem keyAt?_eq_some_iff {position : Int32} :
    a.keyAt? position = some key ↔
      0 ≤ position.toInt ∧ a.keys[position.toInt.toNat]? = some key := by
  rw [keyAt?_eq]
  split
  · simp only [reduceCtorEq, false_iff]
    omega
  · simp only [and_iff_right (Int.not_lt.mp ‹_›)]

theorem IsSound.index_inj (ha : a.IsSound) {i j : Nat} (hi : a.keys[i]? = some key)
    (hj : a.keys[j]? = some key) : i = j :=
  (List.getElem?_inj (List.getElem?_eq_some_iff.mp hi).1 ha.nodup_keys).mp (hi.trans hj.symm)

/-- Keys at different positions differ. -/
theorem IsSound.keyAt?_inj (ha : a.IsSound) {p q : Int32} (hp : a.keyAt? p = some key)
    (hq : a.keyAt? q = some key) : p = q := by
  obtain ⟨hp0, hp⟩ := keyAt?_eq_some_iff.mp hp
  obtain ⟨hq0, hq⟩ := keyAt?_eq_some_iff.mp hq
  have hpq := ha.index_inj hp hq
  exact Int32.toInt_inj.mp (by omega)

/-- The key at a position finds the value that stands there. -/
theorem IsSound.exists_entry_of_keyAt? (ha : a.IsSound) {position : Int32}
    (h : a.keyAt? position = some key) :
    ∃ value, a.entries[position.toInt.toNat]? = some (key, value) ∧ a.get? key = some value := by
  have hk := (keyAt?_eq_some_iff.mp h).2
  rw [keys_getElem?] at hk
  obtain ⟨⟨k, v⟩, he, rfl⟩ := Option.map_eq_some_iff.mp hk
  exact ⟨v, he, ha.get?_of_getElem? he⟩

/-- A key that finds a value stands at one index and no other. -/
theorem IsSound.existsUnique_index (ha : a.IsSound) (h : (a.get? key).isSome) :
    ∃! i : Nat, a.keys[i]? = some (a.keyOf key) := by
  obtain ⟨v, hv⟩ := Option.isSome_iff_exists.mp h
  obtain ⟨i, hi⟩ := exists_getElem?_entries hv
  have hik : a.keys[i]? = some (a.keyOf key) := by rw [keys_getElem?, hi, Option.map_some]
  exact ⟨i, hik, fun j hj => ha.index_inj hj hik⟩

/-- A key that finds a value is the key at one position and no other, as far as positions reach. -/
theorem IsSound.existsUnique_keyAt? (ha : a.IsSound) (h : (a.get? key).isSome)
    (hlen : a.length ≤ 2 ^ 31) : ∃! p : Int32, a.keyAt? p = some (a.keyOf key) := by
  obtain ⟨i, hi, -⟩ := ha.existsUnique_index h
  have hlt := (List.getElem?_eq_some_iff.mp hi).1
  rw [length_keys] at hlt
  have hpos : (Int32.ofNat i).toInt = i := Int32.toInt_ofNat_of_lt (by omega)
  have hp : a.keyAt? (Int32.ofNat i) = some (a.keyOf key) :=
    keyAt?_eq_some_iff.mpr ⟨by omega, by rwa [hpos, Int.toNat_natCast]⟩
  exact ⟨_, hp, fun q hq => ha.keyAt?_inj hq hp⟩

/-- A bound that a list keeps by itself and a map is known to keep. -/
theorem IsSound.length_le (ha : a.IsSound) {n : Nat} (hn : maxList ≤ n)
    (hmap : a.isMap → a.length ≤ n) : a.length ≤ n := by
  cases a with
  | list items => exact Nat.le_trans ha hn
  | map es => exact hmap rfl

/-! ## Setting -/

theorem map_fst_setEntry_of_mem {es : List (Value × Value)} (h : key ∈ es.map Prod.fst) :
    (setEntry key value es).map Prod.fst = es.map Prod.fst := by
  induction es with
  | nil => cases h
  | cons e es ih =>
    rw [setEntry]
    split
    · rename_i he
      rw [List.map_cons, List.map_cons, beq_iff_eq.mp he]
    · rename_i he
      have hmem : key ∈ es.map Prod.fst :=
        (List.mem_cons.mp h).resolve_left fun hk => he (beq_iff_eq.mpr hk.symm)
      rw [List.map_cons, List.map_cons, ih hmem]

theorem setEntry_of_notMem {es : List (Value × Value)} (h : key ∉ es.map Prod.fst) :
    setEntry key value es = es ++ [(key, value)] := by
  induction es with
  | nil => rfl
  | cons e es ih =>
    obtain ⟨hne, hes⟩ := not_or.mp (mt List.mem_cons.mpr h)
    rw [setEntry, if_neg fun he => hne (beq_iff_eq.mp he).symm, ih hes, List.cons_append]

theorem mem_keys_of_get? (h : a.get? key = some value) : a.keyOf key ∈ a.keys := by
  obtain ⟨i, hi⟩ := exists_getElem?_entries h
  exact List.mem_map.mpr ⟨_, List.mem_of_getElem? hi, rfl⟩

/-- A key that is there can be set, and no position changes. -/
theorem IsSound.exists_set? (ha : a.IsSound) (h : (a.get? key).isSome) (value : Value) :
    ∃ b, a.set? key value = some b ∧ b.keys = a.keys := by
  obtain ⟨v, hv⟩ := Option.isSome_iff_exists.mp h
  cases a with
  | list items =>
    obtain ⟨i, hi, hiv⟩ := Option.bind_eq_some_iff.mp hv
    have hlt : i < items.size := (Array.getElem?_eq_some_iff.mp hiv).1
    have hmax : i < maxList := Nat.lt_of_lt_of_le hlt ha
    refine ⟨list (setItem items i value), by simp only [set?, hi, if_pos hmax], ?_⟩
    rw [keys_list, keys_list, size_setItem, max_eq_left hlt]
  | map es => exact ⟨_, rfl, map_fst_setEntry_of_mem (mem_keys_of_get? hv)⟩

/-- A new key of a map comes last. -/
theorem set?_of_get?_eq_none {es : List (Value × Value)} (h : (map es).get? key = none) :
    (map es).set? key value = some (map (es ++ [(key, value)])) := by
  have hnew : key ∉ es.map Prod.fst := by
    rintro hk
    obtain ⟨e, he, rfl⟩ := List.mem_map.mp hk
    simp only [get?, Option.map_eq_none_iff] at h
    exact List.find?_eq_none.mp h e he (beq_self_eq_true e.1)
  rw [set?, setEntry_of_notMem hnew]

theorem IsSound.set? (ha : a.IsSound) (h : a.set? key value = some b) : b.IsSound := by
  cases a with
  | list items =>
    simp only [ValueArray.set?] at h
    split at h
    · rename_i i _
      split at h <;> cases h
      rename_i hlt
      exact size_setItem.trans_le (max_le ha hlt)
    · cases h
  | map es =>
    cases h
    show ((setEntry key value es).map Prod.fst).Nodup
    by_cases hk : key ∈ es.map Prod.fst
    · rwa [map_fst_setEntry_of_mem hk]
    · rw [setEntry_of_notMem hk, List.map_append]
      exact List.Nodup.append ha (List.nodup_singleton key) (List.disjoint_singleton.mpr hk)

theorem isSound_of_create? {length : Int32} (h : create? length = some a) : a.IsSound := by
  unfold create? at h
  split at h
  · cases h
    exact List.nodup_nil
  · split at h <;> cases h
    exact Array.size_replicate.trans_le ‹_›

end ValueArray

open ValueArray

namespace ArrayStore

/-- Every array is sound. -/
def IsSound (s : ArrayStore) : Prop := ∀ a ∈ s.arrays, a.IsSound

variable {s : ArrayStore}

theorem IsSound.serve (h : s.IsSound) (r : Request) : (s.serve r).1.IsSound := by
  cases r with
  | create length =>
    simp only [ArrayStore.serve, ArrayStore.create]
    cases hc : ValueArray.create? length with
    | none => exact h
    | some a =>
      intro b hb
      rcases Array.mem_push.mp hb with hb | rfl
      · exact h b hb
      · exact isSound_of_create? hc
  | set id key value =>
    simp only [ArrayStore.serve, ArrayStore.set]
    cases hg : s.get? id with
    | none =>
      rw [set?_eq_none hg]
      exact h
    | some a =>
      rw [set?_eq_map hg]
      cases hs : a.set? key value with
      | none => exact h
      | some b =>
        obtain ⟨n, -, hn⟩ := Option.bind_eq_some_iff.mp hg
        intro c hc
        rcases Array.mem_or_eq_of_mem_setIfInBounds hc with hc | rfl
        · exact h c hc
        · exact (h a (Array.mem_of_getElem? hn)).set? hs

theorem IsSound.run (h : s.IsSound) (rs : List Request) : (s.run rs).1.IsSound := by
  induction rs generalizing s with
  | nil => exact h
  | cons r rs ih => exact ih (h.serve r)

/-- Every array that a store comes to have is sound. -/
theorem isSound_of_run {rs : List Request} {id : Int32} {a : ValueArray}
    (h : (run {} rs).1.get? id = some a) : a.IsSound := by
  obtain ⟨n, -, hn⟩ := Option.bind_eq_some_iff.mp h
  have hempty : IsSound {} := fun a ha => absurd ha (Array.not_mem_empty a)
  exact hempty.run rs a (Array.mem_of_getElem? hn)

end ArrayStore

end StackScript
