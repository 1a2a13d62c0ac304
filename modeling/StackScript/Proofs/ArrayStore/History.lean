import Mathlib
import StackScript.ArrayStore

/-!
# Arrays as their past

A store against a plain account of it. The account of an array is how it was made and what was
stored in it since, the latest first (`Past`); the account of a store is a list of these.

* `Past.Shown p a`: the array `a` looks as its past `p` demands. The elements of a list are the
  values last stored at their index, and its length reaches as far as it was made or stored to; a
  map has at each key the value last stored there.
* `Follows.serve`: a request has the same answer from a store and from its account, and the store
  goes on following the account.
* `run_shown`: so it is with every sequence of requests to an empty store.
-/

namespace StackScript

/-! ## One array -/

namespace ValueArray

variable {items : Array Value} {n : Nat} {value : Value}

theorem size_setItem : (setItem items n value).size = max items.size (n + 1) := by
  unfold setItem
  split
  · rw [Array.size_set]
    omega
  · simp only [Array.size_push, Array.size_append, Array.size_replicate]
    omega

theorem getElem?_setItem_self : (setItem items n value)[n]? = some value := by
  unfold setItem
  split
  · rename_i h
    rw [Array.getElem?_set_self h]
  · have hsize : (items ++ Array.replicate (n - items.size) blank).size = n := by
      rw [Array.size_append, Array.size_replicate]
      omega
    rw [Array.getElem?_push, if_pos hsize.symm]

/-- Elsewhere a list keeps its elements, and those that come in between are blank. -/
theorem getElem?_setItem_of_ne {i : Nat} (h : i ≠ n) (hi : i < (setItem items n value).size) :
    (setItem items n value)[i]? = some (items.getD i blank) := by
  rw [size_setItem] at hi
  unfold setItem
  split
  · rename_i hn
    have hlt : i < items.size := by omega
    rw [Array.getElem?_set_ne hn (Ne.symm h), Array.getElem?_eq_getElem hlt, Array.getD,
      dif_pos hlt]
    rfl
  · rename_i hn
    have hsize : (items ++ Array.replicate (n - items.size) blank).size = n := by
      rw [Array.size_append, Array.size_replicate]
      omega
    rw [Array.getElem?_push, if_neg (by omega)]
    rcases Nat.lt_or_ge i items.size with hlt | hge
    · rw [Array.getElem?_append_left hlt, Array.getElem?_eq_getElem hlt, Array.getD, dif_pos hlt]
      rfl
    · rw [Array.getElem?_append_right hge, Array.getElem?_replicate, if_pos (by omega), Array.getD,
        dif_neg (by omega)]

theorem get?_setEntry_of_ne {key key' : Value} (h : key ≠ key') (es : List (Value × Value)) :
    (map (setEntry key value es)).get? key' = (map es).get? key' := by
  simp only [get?]
  induction es with
  | nil => simp [setEntry, h]
  | cons e es ih =>
    rw [setEntry]
    by_cases he : e.1 == key
    · have hne : e.1 ≠ key' := fun h' => h ((beq_iff_eq.mp he).symm.trans h')
      simp [he, h, hne]
    · by_cases he' : e.1 == key'
      · simp [he, he']
      · simpa [he, he'] using ih

/-- A list stays a list, and a map a map. -/
theorem isMap_of_set? {a b : ValueArray} {key value : Value} (h : a.set? key value = some b) :
    b.isMap = a.isMap := by
  cases a with
  | map es =>
    cases h
    rfl
  | list items =>
    simp only [set?] at h
    split at h
    · split at h <;> cases h
      rfl
    · cases h

end ValueArray

open ValueArray

/-- Whether a key is a number that is an index once its fraction is dropped. -/
def truncatesTo (key : Value) (i : Nat) : Bool :=
  match key.asInt with
  | .ok n => n.toInt == i
  | .error _ => false

theorem index?_eq_some_iff {key : Value} {i : Nat} : index? key = some i ↔ truncatesTo key i := by
  unfold index? truncatesTo
  cases key.asInt with
  | error e => simp
  | ok n =>
    have hn : n < 0 ↔ n.toInt < 0 := Int32.lt_iff_toInt_lt
    by_cases h : n < 0
    · have := hn.mp h
      simp only [if_pos h, reduceCtorEq, false_iff, beq_iff_eq]
      omega
    · have := mt hn.mpr h
      simp only [if_neg h, Option.some.injEq, beq_iff_eq]
      omega

theorem eq_of_truncatesTo {key : Value} {i j : Nat} (hi : truncatesTo key i)
    (hj : truncatesTo key j) : i = j :=
  Option.some.inj ((index?_eq_some_iff.mpr hi).symm.trans (index?_eq_some_iff.mpr hj))

/-- What happened to an array. -/
structure Past where
  /-- The length of a list when it was new, none for a map. -/
  made : Option Nat
  /-- What was stored, key and value, the latest first. -/
  stored : List (Value × Value) := []

namespace Past

/-- The past of a new array: a map for a negative length, a list if it is not too long. -/
def ofLength? (length : Int) : Option Past :=
  if length < 0 then some ⟨none, []⟩
  else if length ≤ maxList then some ⟨some length.toNat, []⟩
  else none

/-- Whether an array stores under a key: a map under any, a list under the numbers that are in range
without their fraction. -/
def accepts (p : Past) (key : Value) : Bool :=
  match p.made, key.asInt with
  | none, _ => true
  | some _, .ok n => 0 ≤ n.toInt && n.toInt < maxList
  | some _, .error _ => false

/-- The past with one more value stored. -/
def store (p : Past) (key value : Value) : Past := { p with stored := (key, value) :: p.stored }

/-- The value last stored under a key that satisfies a condition. -/
def last? (p : Past) (c : Value → Bool) : Option Value :=
  (p.stored.find? fun e => c e.1).map Prod.snd

/-- The lengths that a list had to have: when it was made, and to hold what was stored. -/
def reached (p : Past) (n : Nat) : Set Nat :=
  {l | l = n ∨ ∃ e ∈ p.stored, ∃ i, truncatesTo e.1 i ∧ l = i + 1}

/-- What an array looks like after its past. -/
inductive Shown : Past → ValueArray → Prop
  | list {p : Past} {n : Nat} {items : Array Value} (hmade : p.made = some n)
      (hlength : IsGreatest (p.reached n) items.size) (hbound : items.size ≤ maxList)
      (hitem : ∀ i < items.size, items[i]? = some ((p.last? (truncatesTo · i)).getD (.int 0))) :
      Shown p (.list items)
  | map {p : Past} {entries : List (Value × Value)} (hmade : p.made = none)
      (hentry : ∀ key, (ValueArray.map entries).get? key = p.last? (· == key)) :
      Shown p (.map entries)

theorem last?_store_of_pos (p : Past) {c : Value → Bool} {key : Value} (value : Value)
    (h : c key) : (p.store key value).last? c = some value := by
  simp [last?, store, h]

theorem last?_store_of_neg (p : Past) {c : Value → Bool} {key : Value} (value : Value)
    (h : ¬ c key) : (p.store key value).last? c = p.last? c := by
  simp [last?, store, h]

theorem reached_store (p : Past) (n : Nat) {key : Value} (value : Value) {i : Nat}
    (h : truncatesTo key i) : (p.store key value).reached n = insert (i + 1) (p.reached n) := by
  ext l
  simp only [reached, store, List.mem_cons, Set.mem_ofPred_eq, Set.mem_insert_iff]
  constructor
  · rintro (rfl | ⟨e, rfl | he, j, hj, rfl⟩)
    · exact .inr (.inl rfl)
    · exact .inl (congrArg (· + 1) (eq_of_truncatesTo hj h))
    · exact .inr (.inr ⟨e, he, j, hj, rfl⟩)
  · rintro (rfl | rfl | ⟨e, he, j, hj, rfl⟩)
    · exact .inr ⟨(key, value), .inl rfl, i, h, rfl⟩
    · exact .inl rfl
    · exact .inr ⟨e, .inr he, j, hj, rfl⟩

/-- Nothing is stored where a list did not have to reach. -/
theorem last?_eq_none_of_reached {p : Past} {n size i : Nat}
    (h : size ∈ upperBounds (p.reached n)) (hi : size ≤ i) : p.last? (truncatesTo · i) = none := by
  refine Option.map_eq_none_iff.mpr (List.find?_eq_none.mpr fun e he ht => ?_)
  have hle : i + 1 ≤ size := h (.inr ⟨e, he, i, ht, rfl⟩)
  omega

theorem accepts_iff {p : Past} {key : Value} :
    p.accepts key ↔ p.made = none ∨ ∃ i < maxList, truncatesTo key i := by
  unfold accepts truncatesTo
  cases p.made with
  | none => simp
  | some n =>
    cases key.asInt with
    | error e => simp
    | ok k =>
      simp only [Bool.and_eq_true, decide_eq_true_eq, reduceCtorEq, false_or, beq_iff_eq]
      constructor
      · intro h
        exact ⟨k.toInt.toNat, by omega, by omega⟩
      · rintro ⟨i, hi, hk⟩
        omega

/-- An array stores exactly what its past accepts, and then shows it. -/
theorem Shown.set? {p : Past} {a : ValueArray} (h : p.Shown a) (key value : Value) :
    (p.accepts key ∧ ∃ b, a.set? key value = some b ∧ (p.store key value).Shown b) ∨
      (¬ p.accepts key ∧ a.set? key value = none) := by
  rw [accepts_iff]
  cases h with
  | map hmade hentry =>
    rename_i entries
    refine .inl ⟨.inl hmade, _, rfl, .map hmade fun key' => ?_⟩
    by_cases hk : key = key'
    · rw [hk, get?_setEntry_self]
      exact (last?_store_of_pos (c := (· == key')) p value (beq_self_eq_true key')).symm
    · rw [get?_setEntry_of_ne hk, hentry]
      exact (last?_store_of_neg (c := (· == key')) p value fun h => hk (beq_iff_eq.mp h)).symm
  | list hmade hlength hbound hitem =>
    rename_i n items
    have hmade' : ∀ {P : Prop}, p.made = none → P := fun h => by rw [hmade] at h; cases h
    cases hi : index? key with
    | none =>
      refine .inr ⟨?_, by simp only [ValueArray.set?, hi]⟩
      rintro (h | ⟨i, -, h⟩)
      · exact hmade' h
      · rw [index?_eq_some_iff.mpr h] at hi
        cases hi
    | some i =>
      have ht := index?_eq_some_iff.mp hi
      by_cases hlt : i < maxList
      · refine .inl ⟨.inr ⟨i, hlt, ht⟩, .list (setItem items i value), ?_, .list hmade ?_ ?_ ?_⟩
        · simp only [ValueArray.set?, hi, if_pos hlt]
        · rw [reached_store p n value ht, size_setItem, max_comm]
          exact hlength.insert (i + 1)
        · rw [size_setItem]
          omega
        · intro j hj
          by_cases hji : j = i
          · rw [hji, getElem?_setItem_self, last?_store_of_pos p value ht]
            rfl
          · rw [getElem?_setItem_of_ne hji hj, last?_store_of_neg p value fun h =>
              hji (eq_of_truncatesTo h ht)]
            rcases Nat.lt_or_ge j items.size with hlt' | hge
            · rw [Array.getD_eq_getD_getElem?, hitem j hlt']
              rfl
            · rw [last?_eq_none_of_reached hlength.2 hge, Array.getD_eq_getD_getElem?,
                Array.getElem?_eq_none hge]
              rfl
      · refine .inr ⟨?_, by simp only [ValueArray.set?, hi, if_neg hlt]⟩
        rintro (h | ⟨j, hj, h⟩)
        · exact hmade' h
        · exact hlt (eq_of_truncatesTo h ht ▸ hj)

/-- A new array shows its past. -/
theorem shown_create? (length : Int32) :
    Option.Rel Shown (ofLength? length.toInt) (ValueArray.create? length) := by
  have hneg : length < 0 ↔ length.toInt < 0 := Int32.lt_iff_toInt_lt
  unfold ofLength? ValueArray.create?
  by_cases h : length.toInt < 0
  · rw [if_pos h, if_pos (hneg.mpr h)]
    exact .some (.map rfl fun key => rfl)
  · rw [if_neg h, if_neg (mt hneg.mp h)]
    by_cases hle : length.toInt ≤ maxList
    · rw [if_pos hle, if_pos (by omega)]
      refine .some (.list rfl ⟨?_, ?_⟩ ?_ ?_)
      · exact .inl Array.size_replicate
      · rintro l (rfl | ⟨e, he, -⟩)
        · exact Nat.le_of_eq Array.size_replicate.symm
        · cases he
      · rw [Array.size_replicate]
        omega
      · intro i hi
        rw [Array.size_replicate] at hi
        rw [Array.getElem?_replicate, if_pos hi]
        rfl
    · rw [if_neg hle, if_neg (by omega)]
      exact .none

end Past

/-! ## The store -/

namespace ArrayStore

/-- What a script asks of the store. -/
inductive Request where
  | create (length : Int32)
  | set (id : Int32) (key value : Value)
  deriving DecidableEq, Repr

/-- What the store answers: the number of the array, or whether the value was stored. -/
inductive Answer where
  | id (n : Int)
  | stored (done : Bool)
  deriving DecidableEq, Repr

/-- Whether a request was refused. -/
def Answer.isRefusal : Answer → Bool
  | id n => n == noArray.toInt
  | stored done => !done

/-- The number of a new array in an answer. -/
def Answer.newId? : Answer → Option Int
  | id n => if n = noArray.toInt then none else some n
  | stored _ => none

/-- The store after a request, with its answer. -/
def serve (s : ArrayStore) : Request → ArrayStore × Answer
  | .create length => ((s.create length).1, .id (s.create length).2.toInt)
  | .set id key value => (s.set id key value, .stored (s.set? id key value).isSome)

/-- The store after requests, with its answers. -/
def run (s : ArrayStore) : List Request → ArrayStore × List Answer
  | [] => (s, [])
  | r :: rs => (((s.serve r).1.run rs).1, (s.serve r).2 :: ((s.serve r).1.run rs).2)

/-- The account of the array with a number. -/
def pastOf? (ps : List Past) (id : Int32) : Option Past :=
  if 0 < id.toInt then ps[id.toInt.toNat - 1]? else none

/-- The account of a store after a request, with the answer. New arrays are numbered from 1 on. -/
def note (ps : List Past) : Request → List Past × Answer
  | .create length =>
    match Past.ofLength? length.toInt with
    | some p => (ps ++ [p], .id (ps.length + 1))
    | none => (ps, .id 0)
  | .set id key value =>
    match pastOf? ps id with
    | some p =>
      if p.accepts key then (ps.set (id.toInt.toNat - 1) (p.store key value), .stored true)
      else (ps, .stored false)
    | none => (ps, .stored false)

/-- The account of a store after requests, with its answers. -/
def chronicle (ps : List Past) : List Request → List Past × List Answer
  | [] => (ps, [])
  | r :: rs => ((chronicle (note ps r).1 rs).1, (note ps r).2 :: (chronicle (note ps r).1 rs).2)

/-- The number of requests for a new array. -/
def creates (rs : List Request) : Nat := rs.countP fun r => r matches .create _

/-- Every array of a store shows its past, and there are no others. -/
structure Follows (s : ArrayStore) (ps : List Past) : Prop where
  size : s.arrays.size = ps.length
  shown : ∀ i : Nat, Option.Rel Past.Shown ps[i]? s.arrays[i]?

variable {s : ArrayStore} {ps : List Past}

theorem slot?_eq (id : Int32) :
    slot? id = if 0 < id.toInt then some (id.toInt.toNat - 1) else none := by
  have h : id ≤ 0 ↔ id.toInt ≤ 0 := Int32.le_iff_toInt_le
  unfold slot?
  by_cases hid : id ≤ 0
  · rw [if_pos hid, if_neg (by have := h.mp hid; omega)]
  · rw [if_neg hid, if_pos (by have := mt h.mpr hid; omega)]

theorem slot?_ne {id id' : Int32} (h : id ≠ id') (hs : (slot? id).isSome) :
    slot? id ≠ slot? id' := by
  have hne : id.toInt ≠ id'.toInt := fun e => h (Int32.toInt_inj.mp e)
  rw [slot?_eq] at hs ⊢
  rw [slot?_eq]
  split at hs
  · rw [if_pos ‹_›]
    split
    · simp only [ne_eq, Option.some.injEq]
      omega
    · simp
  · cases hs

theorem Follows.get? (h : Follows s ps) (id : Int32) :
    Option.Rel Past.Shown (pastOf? ps id) (s.get? id) := by
  unfold pastOf? ArrayStore.get?
  rw [slot?_eq]
  split
  · exact h.shown _
  · exact .none

theorem set?_eq_none {id : Int32} {key value : Value} (h : s.get? id = none) :
    s.set? id key value = none := by
  unfold ArrayStore.get? at h
  unfold ArrayStore.set?
  split
  · rfl
  · rename_i n hn
    rw [hn, Option.bind_some, Array.getElem?_eq_none_iff] at h
    rw [dif_neg (Nat.not_lt.mpr h)]

theorem set?_eq_map {id : Int32} {key value : Value} {a : ValueArray} (h : s.get? id = some a) :
    s.set? id key value =
      (a.set? key value).map fun b => ⟨s.arrays.setIfInBounds (id.toInt.toNat - 1) b⟩ := by
  obtain ⟨n, hn, ha⟩ := Option.bind_eq_some_iff.mp h
  obtain ⟨hlt, rfl⟩ := Array.getElem?_eq_some_iff.mp ha
  have hid : n = id.toInt.toNat - 1 := by
    rw [slot?_eq] at hn
    split at hn <;> cases hn
    rfl
  unfold ArrayStore.set?
  simp only [hn, dif_pos hlt]
  subst hid
  simp only [Array.setIfInBounds, dif_pos hlt]

/-- The number of a new array is not cut off as long as there are numbers. -/
theorem toInt_ofNat_succ {n : Nat} (h : n < 2 ^ 31 - 1) :
    (Int32.ofNat (n + 1)).toInt = (n : Int) + 1 := by
  rw [Int32.toInt_ofNat_of_lt (by omega)]
  omega

/-- The number of a new array is that of its place, or of no place once the numbers have run into
the negative ones. -/
theorem slot?_ofNat_succ {n : Nat} (hn : n < UInt32.size) :
    slot? (Int32.ofNat (n + 1)) = none ∨ slot? (Int32.ofNat (n + 1)) = some n := by
  have hsize : UInt32.size = 2 ^ 32 := rfl
  have hbits : (Int32.size : Int) = 2 ^ 32 := rfl
  rw [slot?_eq]
  by_cases hlt : n < 2 ^ 31 - 1
  · rw [toInt_ofNat_succ hlt, if_pos (by omega)]
    exact .inr (congrArg some (by omega))
  · have hint : (Int32.ofNat (n + 1)).toInt = ((n + 1 : Nat) : Int) - 2 ^ 32 := by
      rw [Int32.toInt_ofNat', Int.bmod_def, hbits]
      omega
    rw [hint, if_neg (by omega)]
    exact .inl rfl

/-- A request is answered as its account says, and the store goes on following its account. -/
theorem Follows.serve (h : Follows s ps) (hn : ps.length < 2 ^ 31 - 1) (r : Request) :
    (s.serve r).2 = (note ps r).2 ∧ Follows (s.serve r).1 (note ps r).1 := by
  cases r with
  | create length =>
    have hc := Past.shown_create? length
    simp only [ArrayStore.serve, ArrayStore.create, note]
    generalize Past.ofLength? length.toInt = p? at hc
    generalize ValueArray.create? length = a? at hc
    cases hc with
    | none => exact ⟨rfl, h⟩
    | some hp =>
      rename_i p a
      refine ⟨?_, ?_, fun i => ?_⟩
      · simp only [count, h.size, toInt_ofNat_succ hn]
      · simp [h.size]
      · rw [Array.getElem?_push, h.size]
        by_cases hi : i = ps.length
        · rw [if_pos hi, hi, List.getElem?_concat_length]
          exact .some hp
        · rw [if_neg hi]
          have hs := h.shown i
          rcases Nat.lt_or_ge i ps.length with hlt | hge
          · rwa [List.getElem?_append_left hlt]
          · have hps : (ps ++ [p])[i]? = none := List.getElem?_eq_none (by
              rw [List.length_append, List.length_singleton]
              omega)
            rw [hps, Array.getElem?_eq_none (by rw [h.size]; exact hge)]
            exact .none
  | set id key value =>
    have hg := h.get? id
    simp only [ArrayStore.serve, ArrayStore.set, note]
    generalize hp : pastOf? ps id = p? at hg
    cases hg' : s.get? id with
    | none =>
      rw [hg'] at hg
      cases hg
      rw [set?_eq_none hg']
      exact ⟨rfl, h⟩
    | some a =>
      rw [hg'] at hg
      cases hg with
      | some hshown =>
        rename_i p
        rw [set?_eq_map hg']
        rcases hshown.set? key value with ⟨hacc, b, hb, hnew⟩ | ⟨hrej, hb⟩
        · simp only [hacc, if_true, hb, Option.map_some, Option.isSome_some, Option.getD_some,
            true_and]
          refine ⟨by simp [h.size], fun i => ?_⟩
          have hlt : id.toInt.toNat - 1 < ps.length := by
            unfold pastOf? at hp
            split at hp
            · exact (List.getElem?_eq_some_iff.mp hp).1
            · cases hp
          by_cases hi : id.toInt.toNat - 1 = i
          · subst hi
            rw [List.getElem?_set_self hlt, Array.getElem?_setIfInBounds_self_of_lt (h.size ▸ hlt)]
            exact .some hnew
          · rw [List.getElem?_set_ne hi, Array.getElem?_setIfInBounds_ne hi]
            exact h.shown i
        · simp only [hrej, hb, Option.map_none, Option.isSome_none, Option.getD_none]
          exact ⟨rfl, h⟩

/-! ## Sequences of requests -/

/-- What a request does to an account: it adds an array, or stores in one, or is refused and does
nothing. -/
theorem note_cases (ps : List Past) (r : Request) :
    (creates [r] = 1 ∧ ∃ p, note ps r = (ps ++ [p], .id (ps.length + 1))) ∨
      (∃ i p, note ps r = (ps.set i p, .stored true)) ∨
      ∃ a : Answer, a.isRefusal ∧ note ps r = (ps, a) := by
  cases r with
  | create length =>
    simp only [note]
    cases Past.ofLength? length.toInt with
    | some p => exact .inl ⟨rfl, p, rfl⟩
    | none => exact .inr (.inr ⟨_, rfl, rfl⟩)
  | set id key value =>
    simp only [note]
    cases pastOf? ps id with
    | none => exact .inr (.inr ⟨_, rfl, rfl⟩)
    | some p =>
      by_cases h : p.accepts key
      · exact .inr (.inl ⟨_, _, if_pos h⟩)
      · exact .inr (.inr ⟨_, rfl, if_neg h⟩)

theorem creates_cons (r : Request) (rs : List Request) :
    creates (r :: rs) = creates [r] + creates rs := by
  unfold creates
  rw [← List.singleton_append, List.countP_append]

theorem length_note_le (ps : List Past) (r : Request) :
    (note ps r).1.length ≤ ps.length + creates [r] := by
  rcases note_cases ps r with ⟨hc, p, h⟩ | ⟨i, p, h⟩ | ⟨a, -, h⟩
  · simp [h, hc]
  · simp [h]
  · simp [h]

/-- A store that follows its account goes on to do so, with the answers of the account, as long as
there are numbers for new arrays. -/
theorem Follows.run (rs : List Request) (h : Follows s ps)
    (hn : ps.length + creates rs < 2 ^ 31 - 1) :
    (s.run rs).2 = (chronicle ps rs).2 ∧ Follows (s.run rs).1 (chronicle ps rs).1 := by
  induction rs generalizing s ps with
  | nil => exact ⟨rfl, h⟩
  | cons r rs ih =>
    rw [creates_cons] at hn
    have hle := length_note_le ps r
    obtain ⟨ha, hf⟩ := h.serve (by omega) r
    obtain ⟨has, hfs⟩ := ih hf (by omega)
    exact ⟨congrArg₂ List.cons ha has, hfs⟩

theorem length_chronicle_le (ps : List Past) (rs : List Request) :
    (chronicle ps rs).1.length ≤ ps.length + creates rs := by
  induction rs generalizing ps with
  | nil => exact Nat.le_refl _
  | cons r rs ih =>
    calc (chronicle ps (r :: rs)).1.length
        ≤ (note ps r).1.length + creates rs := ih (note ps r).1
      _ ≤ ps.length + creates [r] + creates rs := Nat.add_le_add_right (length_note_le ps r) _
      _ = ps.length + creates (r :: rs) := by rw [creates_cons r rs, Nat.add_assoc]

/-- New arrays are numbered one after the other. -/
theorem newIds_chronicle (ps : List Past) (rs : List Request) :
    ∃ k, (chronicle ps rs).1.length = ps.length + k ∧
      (chronicle ps rs).2.filterMap Answer.newId? =
        (List.range' (ps.length + 1) k).map Int.ofNat := by
  induction rs generalizing ps with
  | nil => exact ⟨0, rfl, rfl⟩
  | cons r rs ih =>
    obtain ⟨k, hk, hids⟩ := ih (note ps r).1
    simp only [chronicle, List.filterMap_cons]
    rw [hk, hids]
    rcases note_cases ps r with ⟨-, p, h⟩ | ⟨i, p, h⟩ | ⟨a, ha, h⟩
    · refine ⟨k + 1, ?_, ?_⟩
      · simp only [h, List.length_append, List.length_singleton]
        omega
      · have hne : (ps.length + 1 : Int) ≠ noArray.toInt :=
          show (ps.length + 1 : Int) ≠ 0 by omega
        have hid : (Answer.id (ps.length + 1)).newId? = some (Int.ofNat (ps.length + 1)) := by
          rw [Answer.newId?, if_neg hne]
          rfl
        simp only [h, hid, List.length_append, List.length_singleton, List.range'_succ,
          List.map_cons]
    · exact ⟨k, by simp [h], by simp [h, Answer.newId?]⟩
    · refine ⟨k, by simp [h], ?_⟩
      have hid : a.newId? = none := by
        cases a with
        | id n => exact if_pos (beq_iff_eq.mp ha)
        | stored done => rfl
      simp [h, hid]

theorem run_append (s : ArrayStore) (rs rs' : List Request) :
    (s.run (rs ++ rs')).1 = ((s.run rs).1.run rs').1 := by
  induction rs generalizing s with
  | nil => rfl
  | cons r rs ih => exact ih (s.serve r).1

theorem set_of_slot?_eq_none {id : Int32} (h : slot? id = none) (key value : Value) :
    s.set id key value = s := by
  simp [ArrayStore.set, ArrayStore.set?, h]

/-- Setting a value leaves every array alone but the one that is addressed. -/
theorem get?_set_of_id_ne {id id' : Int32} (h : id ≠ id') (key value : Value) :
    (s.set id key value).get? id' = s.get? id' := by
  cases hs : slot? id with
  | none => rw [set_of_slot?_eq_none hs]
  | some n =>
    refine get?_set_of_ne s key value (slot?_ne h ?_)
    rw [hs]
    rfl

/-- What an array becomes when it takes a value is what the store then has under its number. -/
theorem get?_set_of_set? {id : Int32} {key value : Value} {a b : ValueArray}
    (h : s.get? id = some a) (hb : a.set? key value = some b) :
    (s.set id key value).get? id = some b := by
  obtain ⟨n, hn, ha⟩ := Option.bind_eq_some_iff.mp h
  have hlt := (Array.getElem?_eq_some_iff.mp ha).1
  unfold ArrayStore.set
  rw [set?_eq_map h, hb]
  rw [slot?_eq] at hn
  simp only [Option.map_some, Option.getD_some, ArrayStore.get?, slot?_eq]
  split at hn <;> cases hn
  rw [if_pos ‹_›, Option.bind_some, Array.getElem?_setIfInBounds_self_of_lt hlt]

/-- Setting an element leaves the arrays at all places but one. -/
theorem getElem?_set_of_slot?_ne {id : Int32} {i : Nat} (h : slot? id ≠ some i)
    (key value : Value) : (s.set id key value).arrays[i]? = s.arrays[i]? := by
  unfold ArrayStore.set ArrayStore.set?
  split
  · rfl
  · rename_i n hn
    have hne : n ≠ i := fun e => h (hn.trans (congrArg some e))
    split
    · cases s.arrays[n].set? key value with
      | none => rfl
      | some a => simp [hne]
    · rfl

theorem count_set (s : ArrayStore) (id : Int32) (key value : Value) :
    (s.set id key value).count = s.count := by
  unfold ArrayStore.set ArrayStore.set?
  split
  · rfl
  · rename_i n hn
    split
    · cases s.arrays[n].set? key value with
      | none => rfl
      | some a => simp [count]
    · rfl

/-- Setting an element of the last array leaves those before it. -/
theorem exists_set_eq_push {old : Array ValueArray} {a : ValueArray} {id : Int32}
    (hid : slot? id = some old.size) (ha : s.arrays = old.push a) (key value : Value) :
    ∃ b, (s.set id key value).arrays = old.push b := by
  have hcount := count_set s id key value
  simp only [count, ha, Array.size_push] at hcount
  have hlt : old.size < (s.set id key value).arrays.size := by omega
  refine ⟨(s.set id key value).arrays[old.size], Array.ext_getElem? fun i => ?_⟩
  rw [Array.getElem?_push]
  split
  · rename_i hi
    rw [hi, Array.getElem?_eq_getElem hlt]
  · rename_i hi
    rw [getElem?_set_of_slot?_ne (by simp [hid, Ne.symm hi]), ha, Array.getElem?_push, if_neg hi]

/-- An array is there after a request, and as a list or as a map like before. -/
theorem exists_get?_serve (r : Request) {id : Int32} {a : ValueArray} (h : s.get? id = some a) :
    ∃ b, (s.serve r).1.get? id = some b ∧ b.isMap = a.isMap := by
  cases r with
  | create length =>
    refine ⟨a, ?_, rfl⟩
    simp only [ArrayStore.serve, ArrayStore.create]
    cases ValueArray.create? length with
    | none => exact h
    | some b =>
      obtain ⟨n, hn, ha⟩ := Option.bind_eq_some_iff.mp h
      have hlt := (Array.getElem?_eq_some_iff.mp ha).1
      simp only [ArrayStore.get?, hn, Option.bind_some, Array.getElem?_push_lt hlt]
      rw [← Array.getElem?_eq_getElem hlt, ha]
  | set id' key value =>
    simp only [ArrayStore.serve]
    by_cases hid : id' = id
    · subst hid
      cases hb : a.set? key value with
      | none =>
        unfold ArrayStore.set
        rw [set?_eq_map h, hb]
        exact ⟨a, h, rfl⟩
      | some b => exact ⟨b, get?_set_of_set? h hb, isMap_of_set? hb⟩
    · exact ⟨a, (get?_set_of_id_ne hid key value).trans h, rfl⟩

theorem exists_get?_run (rs : List Request) {id : Int32} {a : ValueArray} (h : s.get? id = some a) :
    ∃ b, (s.run rs).1.get? id = some b ∧ b.isMap = a.isMap := by
  induction rs generalizing s a with
  | nil => exact ⟨a, h, rfl⟩
  | cons r rs ih =>
    obtain ⟨b, hb, hm⟩ := exists_get?_serve r h
    obtain ⟨b', hb', hm'⟩ := ih hb
    exact ⟨b', hb', hm'.trans hm⟩

/-- A refused request leaves the store as it is, as long as there are numbers for new arrays. -/
theorem serve_of_isRefusal {r : Request} (hn : s.count < 2 ^ 31 - 1)
    (h : (s.serve r).2.isRefusal) : (s.serve r).1 = s := by
  cases r with
  | create length =>
    cases hc : ValueArray.create? length with
    | none => simp only [ArrayStore.serve, ArrayStore.create, hc]
    | some a =>
      simp only [ArrayStore.serve, ArrayStore.create, hc, toInt_ofNat_succ hn] at h
      have hid : (s.count : Int) + 1 = 0 := beq_iff_eq.mp h
      omega
  | set id key value =>
    have hnone : s.set? id key value = none := by simpa [ArrayStore.serve, Answer.isRefusal] using h
    simp only [ArrayStore.serve, ArrayStore.set, hnone, Option.getD_none]

theorem follows_empty : Follows {} [] := ⟨rfl, fun _ => .none⟩

/-- Whatever was asked of an empty store, with numbers enough for all new arrays: it has answered as
the account of the arrays says, new arrays are numbered from 1 on, and every array shows its past.
No array that was there before is gone. Setting a value changes no other array, and a refused
request changes nothing. -/
theorem run_shown (rs : List Request) (hn : creates rs < 2 ^ 31 - 1) :
    let s := (run {} rs).1
    let ps := (chronicle [] rs).1
    (run {} rs).2 = (chronicle [] rs).2 ∧
      (run {} rs).2.filterMap Answer.newId? = (List.range' 1 s.count).map Int.ofNat ∧
      (∀ id, Option.Rel Past.Shown (pastOf? ps id) (s.get? id)) ∧
      (∀ before, before <+: rs → ∀ id a, (run {} before).1.get? id = some a →
        ∃ b, s.get? id = some b ∧ b.isMap = a.isMap) ∧
      (∀ id key value id', id ≠ id' → (s.set id key value).get? id' = s.get? id') ∧
      ∀ r, (s.serve r).2.isRefusal → (s.serve r).1 = s := by
  intro s ps
  obtain ⟨ha, hf⟩ := follows_empty.run rs (by simpa using hn)
  obtain ⟨k, hk, hids⟩ := newIds_chronicle [] rs
  have hcount : s.count = k := by rw [count, hf.size, hk, List.length_nil, Nat.zero_add]
  have hle := length_chronicle_le [] rs
  rw [hk, List.length_nil, Nat.zero_add] at hle
  refine ⟨ha, ?_, hf.get?, ?_, ?_, ?_⟩
  · rw [ha, hids, hcount]
    rfl
  · rintro before ⟨rest, rfl⟩ id a h
    obtain ⟨b, hb, hm⟩ := exists_get?_run rest h
    refine ⟨b, ?_, hm⟩
    rw [← hb]
    exact congrArg (ArrayStore.get? · id) (run_append {} before rest)
  · exact fun id key value id' hne => get?_set_of_id_ne hne key value
  · exact fun r h => serve_of_isRefusal (by omega) h

/-- A list of one element grows to hold a value at 2.5, and a map tells the two zeros apart. -/
theorem run_shown_grown :
    let rs : List Request := [.create 1, .create (-1), .set 1 (.float ⟨0x40200000⟩) (.int 7),
      .set 2 (.float ⟨0x80000000⟩) (.int 8), .set 2 (.float ⟨0⟩) (.int 9),
      .set 1 (.int (-1)) (.int 3)]
    let s := (run {} rs).1
    creates rs < 2 ^ 31 - 1 ∧ s.get? 1 = some (.list #[.int 0, .int 0, .int 7]) ∧
      (∃ p, pastOf? (chronicle [] rs).1 1 = some p ∧
        p.Shown (.list #[.int 0, .int 0, .int 7])) ∧
      (run {} rs).2 = (chronicle [] rs).2 ∧ (s.set 1 (.int 0) (.int 5)).get? 2 = s.get? 2 := by
  intro rs s
  have hn : creates rs < 2 ^ 31 - 1 := by decide
  have hlist : s.get? 1 = some (.list #[.int 0, .int 0, .int 7]) := by decide +kernel
  obtain ⟨ha, -, hshown, -, hother, -⟩ := run_shown rs hn
  have h1 := hshown 1
  rw [hlist] at h1
  generalize pastOf? (chronicle [] rs).1 1 = p? at h1 ⊢
  cases h1 with
  | some h => exact ⟨hn, hlist, ⟨_, rfl, h⟩, ha, hother 1 _ _ 2 (by decide)⟩

end ArrayStore

end StackScript
