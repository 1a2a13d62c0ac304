import StackScript.Proofs.ArrayStore.History
import StackScript.Proofs.Host.Session
import StackScript.Proofs.Machine.Handles
import StackScript.Proofs.Machine.Meaning

/-!
# Texts and their handles

Texts enter the table at its end and are never taken out, and no text enters it twice. So a handle
and the text that it names belong together for as long as the table lives, whatever a host asks for.

* `admits_texts`: every change of a machine keeps the texts of the table, and keeps them distinct.
* `handle_eq_iff`: in a table of distinct texts two handles are equal exactly if their texts are.
* `intern_session` says this of two points of a session, and of the keys of a map.
-/

namespace StackScript

namespace Machine

variable {m m' : Machine}

/-- No text stands twice in the table. -/
def IsDistinct (m : Machine) : Prop := m.strings.toList.Nodup

/-- Two handles are equal exactly if the texts that they name are. -/
theorem IsDistinct.handle_eq_iff (hm : m.IsDistinct) {i j : UInt32} {a b : String}
    (hi : m.text? i = some a) (hj : m.text? j = some b) : i = j ↔ a = b := by
  constructor
  · rintro rfl
    exact Option.some.inj (hi.symm.trans hj)
  · rintro rfl
    have hlt := (Array.getElem?_eq_some_iff.mp hi).1
    unfold text? at hi hj
    rw [← Array.getElem?_toList] at hi hj
    exact UInt32.toNat_inj.mp ((List.getElem?_inj (by simpa using hlt) hm).mp (hi.trans hj.symm))

theorem IsDistinct.push (hm : m.IsDistinct) {text : String}
    (h : m.strings.idxOf? text = none) : (m.strings.push text).toList.Nodup := by
  have hn : text ∉ m.strings.toList := by
    simpa using Array.idxOf?_eq_none_iff.mp h
  rw [Array.toList_push, ← List.concat_eq_append]
  exact List.Nodup.concat hn hm

/-- Every change of a machine keeps the texts of its table, and keeps them distinct. -/
theorem admits_texts : AdmitsAll fun m m' => Grows m m' ∧ (m.IsDistinct → m'.IsDistinct) where
  refl m := ⟨.refl m, id⟩
  trans h h' := ⟨h.1.trans h'.1, h'.2 ∘ h.2⟩
  stack m _ := ⟨.refl m, id⟩
  intern m text h := ⟨by simp [Grows], fun hm => hm.push h⟩
  create m _ := ⟨.refl m, id⟩
  set m _ _ _ := ⟨.refl m, id⟩
  write m _ _ := ⟨.refl m, id⟩
  log m _ := ⟨.refl m, id⟩
  stop m _ := ⟨.refl m, id⟩

/-! ## Keys of maps -/

/-- After a value was set in a map it is found under its own key, and under the others what was
there before. -/
theorem getArray_set {id : Int32} {es : List (Value × Value)}
    (h : m.arrays.get? id = some (.map es)) (key key' v : Value) :
    ({ m with arrays := m.arrays.set id key v } : Machine).getArray id key' =
      if key = key' then v else m.getArray id key' := by
  have hset : (m.arrays.set id key v).get? id = some (.map (ValueArray.setEntry key v es)) :=
    ArrayStore.get?_set_of_set? h rfl
  simp only [getArray, hset, h, Option.bind_some]
  split
  · rename_i hk
    rw [← hk, ValueArray.get?_setEntry_self]
    rfl
  · rename_i hk
    rw [ValueArray.get?_setEntry_of_ne hk]

/-- What is set under one key of a map is found under another only if they are the same. -/
theorem forall_getArray_set_iff {id : Int32} {es : List (Value × Value)}
    (h : m.arrays.get? id = some (.map es)) (key key' : Value) :
    (∀ v, ({ m with arrays := m.arrays.set id key v } : Machine).getArray id key' = v) ↔
      key = key' := by
  constructor
  · intro hall
    by_contra hk
    have h0 := hall (.int 0)
    have h1 := hall (.int 1)
    rw [getArray_set h, if_neg hk] at h0 h1
    exact absurd (h0.symm.trans h1) (by decide)
  · rintro rfl v
    rw [getArray_set h, if_pos rfl]

end Machine

open Machine

namespace Host

theorem isDistinct_session (n : Nat) (s : SettingStore) (d : Disk) (rs : List Request) :
    (session (fresh n s d) rs).IsDistinct :=
  (admits_texts.session (fresh n s d) rs).2 List.nodup_nil

/-- The machine after the first requests of a session. -/
def point (n : Nat) (s : SettingStore) (d : Disk) (rs : List Request) (k : Nat) : Machine :=
  session (fresh n s d) (rs.take k)

variable {n : Nat} {s : SettingStore} {d : Disk} {rs : List Request}

theorem grows_point {j k : Nat} (h : j ≤ k) : Grows (point n s d rs j) (point n s d rs k) :=
  (admits_texts.session_of_isPrefix _ (List.take_prefix_take_left h)).1

theorem grows_session (k : Nat) : Grows (point n s d rs k) (session (fresh n s d) rs) :=
  (admits_texts.session_of_isPrefix _ (List.take_prefix k rs)).1

/-- A text that a host enters is answered with a handle that names it, as long as there are handles
for all texts. -/
theorem exists_intern_point {k : Nat} {text : String} (hk : rs[k]? = some (.intern text))
    (hs : (point n s d rs k).strings.size < UInt32.size) :
    ∃ handle, intern text (point n s d rs k) = .ok (.string handle) (point n s d rs (k + 1)) ∧
      (point n s d rs (k + 1)).text? handle = some text := by
  have hnext : point n s d rs (k + 1) = ((point n s d rs k).interned text).1 := by
    unfold point
    rw [List.take_add_one, hk, session_append]
    simp only [Option.toList_some, session, List.foldl_cons, List.foldl_nil, serve, Request.act,
      Bind.bind, EStateM.bind, intern_eq]
    rfl
  have hi := intern_eq (point n s d rs k) text
  obtain ⟨handle, hv, ht⟩ := text?_of_intern hs hi
  rw [hnext]
  exact ⟨handle, hv ▸ hi, ht⟩

/-- In a session with handles for all texts, a handle that names a text goes on naming it, and a
text that a host enters is answered with a handle that names it. Two answers, whenever they were
given, are equal exactly if the texts are. So are the handles of any two texts at one time, and
under two such handles a map keeps one entry exactly if the texts are equal. -/
theorem intern_session (hs : (session (fresh n s d) rs).strings.size < UInt32.size) :
    (∀ j k, j ≤ k → ∀ handle text, (point n s d rs j).text? handle = some text →
      (point n s d rs k).text? handle = some text) ∧
      (∀ k text, rs[k]? = some (.intern text) →
        ∃ handle, intern text (point n s d rs k) = .ok (.string handle) (point n s d rs (k + 1)) ∧
          (point n s d rs (k + 1)).text? handle = some text) ∧
      (∀ j k a b v w m m', rs[j]? = some (.intern a) → rs[k]? = some (.intern b) →
        intern a (point n s d rs j) = .ok v m → intern b (point n s d rs k) = .ok w m' →
          (v = w ↔ a = b)) ∧
      ∀ k i j a b, (point n s d rs k).text? i = some a → (point n s d rs k).text? j = some b →
        (i = j ↔ a = b) ∧
          ∀ id es, (point n s d rs k).arrays.get? id = some (.map es) →
            ((∀ v, ({ point n s d rs k with
                arrays := (point n s d rs k).arrays.set id (.string i) v } : Machine).getArray id
                  (.string j) = v) ↔ a = b) := by
  have size_lt (k : Nat) : (point n s d rs k).strings.size < UInt32.size :=
    Nat.lt_of_le_of_lt (grows_session k).size_le hs
  refine ⟨fun j k h handle text => (grows_point h).text?, ?_, ?_, ?_⟩
  · exact fun k text hk => exists_intern_point hk (size_lt k)
  · intro j k a b v w m m' hj hk hv hw
    -- Both answers are compared in the table at the end of the session, which names both texts.
    obtain ⟨i, hi, hia⟩ := exists_intern_point hj (size_lt j)
    obtain ⟨l, hl, hlb⟩ := exists_intern_point hk (size_lt k)
    rw [hv] at hi
    rw [hw] at hl
    cases hi
    cases hl
    rw [Value.string.injEq]
    exact (isDistinct_session n s d rs).handle_eq_iff ((grows_session _).text? hia)
      ((grows_session _).text? hlb)
  · intro k i j a b hi hj
    have hij := (isDistinct_session n s d (rs.take k)).handle_eq_iff hi hj
    refine ⟨hij, fun id es he => ?_⟩
    rw [forall_getArray_set_iff he, Value.string.injEq]
    exact hij

/-- A text entered a second time has its first handle, whatever a call has entered in between. -/
theorem intern_session_again :
    let rs : List Request := [.intern "a", .call "get_metarule_table" [], .intern "b", .intern "a"]
    (session (fresh 8 {} {}) rs).strings.size < UInt32.size ∧
      ∃ i j, intern "a" (point 8 {} {} rs 0) = .ok (.string i) (point 8 {} {} rs 1) ∧
        intern "a" (point 8 {} {} rs 3) = .ok (.string i) (point 8 {} {} rs 4) ∧
        intern "b" (point 8 {} {} rs 2) = .ok (.string j) (point 8 {} {} rs 3) ∧ i ≠ j := by
  intro rs
  have hs : (session (fresh 8 {} {}) rs).strings.size < UInt32.size := by decide +kernel
  obtain ⟨-, answered, equal, -⟩ := intern_session hs
  obtain ⟨i, hi, -⟩ := answered 0 "a" rfl
  obtain ⟨i', hi', -⟩ := answered 3 "a" rfl
  obtain ⟨j, hj, -⟩ := answered 2 "b" rfl
  have hsame : Value.string i = .string i' := (equal 0 3 "a" "a" _ _ _ _ rfl rfl hi hi').mpr rfl
  have hother : Value.string i ≠ .string j := fun h =>
    absurd ((equal 0 2 "a" "b" _ _ _ _ rfl rfl hi hj).mp h) (by decide)
  rw [Value.string.injEq] at hsame
  exact ⟨hs, i, j, hi, hsame ▸ hi', hj, fun h => hother (congrArg Value.string h)⟩

end Host

end StackScript
