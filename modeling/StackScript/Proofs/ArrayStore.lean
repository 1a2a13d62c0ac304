import Mathlib
import StackScript.ArrayStore

/-!
# Properties of all values in arrays

`ValueArray.All p` and `ArrayStore.All p`: the property `p` holds of every key and every value. It
is kept when a value that has it is set under a key that has it (`ArrayStore.All.set`), and what is
looked up has it (`All.of_get?`, `All.of_keyAt?`). Integers stand in new elements and for the indices
of lists, so `p` must hold of them.
-/

namespace StackScript

variable {p : Value → Prop} {key value : Value}

namespace ValueArray

/-- A property of all keys and values. -/
def All (p : Value → Prop) (a : ValueArray) : Prop := ∀ e ∈ a.entries, p e.1 ∧ p e.2

theorem all_list_iff (hint : ∀ n, p (.int n)) {items : Array Value} :
    (list items).All p ↔ ∀ v ∈ items, p v := by
  constructor
  · intro h v hv
    obtain ⟨i, hi, rfl⟩ := Array.getElem_of_mem hv
    have hz : (items.toList[i], i) ∈ items.toList.zipIdx :=
      List.mem_zipIdx_iff_getElem?.mpr (List.getElem?_eq_getElem hi)
    exact (h _ (List.mem_map.mpr ⟨_, hz, rfl⟩)).2
  · intro h e he
    obtain ⟨⟨v, i⟩, hz, rfl⟩ := List.mem_map.mp he
    exact ⟨hint _, h v (Array.mem_toList_iff.mp
      (List.mem_of_getElem? (List.mem_zipIdx_iff_getElem?.mp hz)))⟩

theorem all_map_iff {es : List (Value × Value)} : (map es).All p ↔ ∀ e ∈ es, p e.1 ∧ p e.2 :=
  Iff.rfl

theorem forall_mem_setItem (hint : ∀ n, p (.int n)) {items : Array Value} (h : ∀ v ∈ items, p v)
    (n : Nat) (hv : p value) : ∀ v ∈ setItem items n value, p v := by
  unfold setItem
  split
  · intro v hm
    rcases Array.mem_or_eq_of_mem_set hm with hm | rfl
    · exact h v hm
    · exact hv
  · intro v hm
    simp only [Array.mem_push, Array.mem_append, Array.mem_replicate] at hm
    rcases hm with (hm | ⟨-, rfl⟩) | rfl
    · exact h v hm
    · exact hint 0
    · exact hv

theorem forall_mem_setEntry {es : List (Value × Value)} (h : ∀ e ∈ es, p e.1 ∧ p e.2)
    (hk : p key) (hv : p value) : ∀ e ∈ setEntry key value es, p e.1 ∧ p e.2 := by
  induction es with
  | nil => simpa [setEntry] using ⟨hk, hv⟩
  | cons e es ih =>
    obtain ⟨he, hes⟩ := List.forall_mem_cons.mp h
    rw [setEntry]
    split
    · exact List.forall_mem_cons.mpr ⟨⟨hk, hv⟩, hes⟩
    · exact List.forall_mem_cons.mpr ⟨he, ih hes⟩

variable {a b : ValueArray}

theorem All.set? (hint : ∀ n, p (.int n)) (ha : a.All p) (hk : p key) (hv : p value)
    (h : a.set? key value = some b) : b.All p := by
  cases a with
  | list items =>
    simp only [ValueArray.set?] at h
    split at h
    · rename_i n _
      split at h <;> cases h
      exact (all_list_iff hint).mpr (forall_mem_setItem hint ((all_list_iff hint).mp ha) n hv)
    · cases h
  | map es =>
    cases h
    exact forall_mem_setEntry (all_map_iff.mp ha) hk hv

theorem all_of_create? (hint : ∀ n, p (.int n)) {length : Int32} (h : create? length = some a) :
    a.All p := by
  unfold create? at h
  split at h
  · cases h
    exact fun e he => absurd he List.not_mem_nil
  · split at h <;> cases h
    refine (all_list_iff hint).mpr fun v hv => ?_
    rw [(Array.mem_replicate.mp hv).2]
    exact hint 0

theorem All.of_get? (hint : ∀ n, p (.int n)) (ha : a.All p) {v : Value}
    (h : a.get? key = some v) : p v := by
  cases a with
  | list items =>
    obtain ⟨n, -, hn⟩ := Option.bind_eq_some_iff.mp h
    exact (all_list_iff hint).mp ha v (Array.mem_of_getElem? hn)
  | map es =>
    obtain ⟨e, he, rfl⟩ := Option.map_eq_some_iff.mp h
    exact (ha e (List.mem_of_find?_eq_some he)).2

theorem All.of_keyAt? (hint : ∀ n, p (.int n)) (ha : a.All p) {position : Int32} {k : Value}
    (h : a.keyAt? position = some k) : p k := by
  unfold keyAt? at h
  split at h
  · cases h
  · cases a with
    | list items =>
      simp only at h
      split at h <;> cases h
      exact hint position
    | map es =>
      obtain ⟨e, he, rfl⟩ := Option.map_eq_some_iff.mp h
      exact (ha e (List.mem_of_getElem? he)).1

end ValueArray

namespace ArrayStore

variable {s : ArrayStore}

/-- A property of all keys and values of all arrays. -/
def All (p : Value → Prop) (s : ArrayStore) : Prop := ∀ a ∈ s.arrays, a.All p

theorem All.mono {q : Value → Prop} (h : s.All p) (hpq : ∀ v, p v → q v) : s.All q :=
  fun a ha e he => ⟨hpq _ (h a ha e he).1, hpq _ (h a ha e he).2⟩

theorem all_empty : All p {} := fun a ha => absurd ha (Array.not_mem_empty a)

theorem All.create (hint : ∀ n, p (.int n)) (h : s.All p) (length : Int32) :
    (s.create length).1.All p := by
  unfold ArrayStore.create
  split
  · rename_i a hc
    intro b hb
    rcases Array.mem_push.mp hb with hb | rfl
    · exact h b hb
    · exact ValueArray.all_of_create? hint hc
  · exact h

theorem All.set (hint : ∀ n, p (.int n)) (h : s.All p) (id : Int32) (hk : p key)
    (hv : p value) : (s.set id key value).All p := by
  unfold ArrayStore.set ArrayStore.set?
  split
  · exact h
  · rename_i n _
    split
    · rename_i hn
      cases hs : s.arrays[n].set? key value with
      | none => exact h
      | some a =>
        intro b hb
        have hb' : b ∈ s.arrays.set n a hn := hb
        rcases Array.mem_or_eq_of_mem_set hb' with hb | rfl
        · exact h b hb
        · exact (h _ (Array.getElem_mem hn)).set? hint hk hv hs
    · exact h

theorem All.of_get? (h : s.All p) {id : Int32} {a : ValueArray} (ha : s.get? id = some a) :
    a.All p := by
  obtain ⟨n, -, hn⟩ := Option.bind_eq_some_iff.mp ha
  exact h a (Array.mem_of_getElem? hn)

end ArrayStore

end StackScript
