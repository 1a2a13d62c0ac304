import StackScript.Proofs.ArrayStore.Positions
import StackScript.Proofs.Machine.CallOrder

/-!
# Walking through arrays

A script goes through an array by its positions: it asks for the number of elements, for the key at
each position and for the element under this key.

* `ask_run`: an opcode whose result is taken leaves the machine as it was.
* `visit_run`: a visit at a position gives the entry there.
* `walk_run`: a walk gives all entries in order.
* `ArrayStore.positions_of_run` is the statement about positions, keys and entries of every array
  that a store comes to have.
-/

namespace StackScript

namespace Machine

variable {m : Machine} {α : Type}

/-- Does an opcode with arguments and takes its result. -/
def ask (op : Opcode) (args : List Value) : Action Value := do
  pushMany args
  execute op.code
  pop

/-- The key at a position of an array and the element under this key. -/
def visit (id position : Int32) : Action (Value × Value) := do
  let key ← ask .arrayKey [.int id, .int position]
  let value ← ask .getArray [.int id, key]
  pure (key, value)

/-- Visits all positions of an array, one after the other. -/
def walk (id : Int32) : Action (List (Value × Value)) := do
  let n ← ofExcept (← ask .lenArray [.int id]).asInt
  (List.range n.toInt.toNat).mapM fun i => visit id (Int32.ofNat i)

/-- The machine after the opcode, without its result. -/
theorem ask_run_to {m' : Machine} {op : Opcode} {args : List Value} {v : Value}
    (hs : m.stopped = none) (hr : m.depth + args.length ≤ m.capacity)
    (h : step op (m.on (args.reverse ++ m.stack)) = .ok () (m'.on (v :: m.stack))) :
    ask op args m = .ok v (m'.on m.stack) := by
  have hpush : pushMany args m = .ok () (m.on (args.reverse ++ m.stack)) := pushMany_of_le hr
  have hstep : execute op.code (m.on (args.reverse ++ m.stack)) = .ok () (m'.on (v :: m.stack)) :=
    execute_run hs h
  simp only [ask, Bind.bind, EStateM.bind, hpush, hstep]
  rfl

theorem ask_run {op : Opcode} {args : List Value} {v : Value} (hs : m.stopped = none)
    (hr : m.depth + args.length ≤ m.capacity)
    (h : step op (m.on (args.reverse ++ m.stack)) = .ok () (m.on (v :: m.stack))) :
    ask op args m = .ok v m := ask_run_to hs hr h

/-- What is gathered at each index of a list without a change of the machine is the list. -/
theorem mapM_range_run {f : Nat → Action α} {xs : List α}
    (h : ∀ i x, xs[i]? = some x → f i m = .ok x m) :
    (List.range xs.length).mapM f m = .ok xs m := by
  induction xs using List.reverseRecOn with
  | nil => rfl
  | append_singleton xs x ih =>
    have hlast : f xs.length m = .ok x m := h _ x List.getElem?_concat_length
    have hinit := ih fun i y hy => h i y (by
      rwa [List.getElem?_append_left (List.getElem?_eq_some_iff.mp hy).1])
    rw [List.length_append, List.length_singleton, List.range_succ, List.mapM_append]
    simp only [Bind.bind, EStateM.bind, hinit, List.mapM_cons, List.mapM_nil, hlast]
    rfl

section Walk

variable {id : Int32} {a : ValueArray}

/-- A visit at a position gives the entry there. -/
theorem visit_run (ha : m.arrays.get? id = some a) (hsound : a.IsSound) (hs : m.stopped = none)
    (hr : m.depth + 2 ≤ m.capacity) {position : Int32} {key value : Value}
    (hkey : a.keyAt? position = some key)
    (hentry : a.entries[position.toInt.toNat]? = some (key, value)) :
    visit id position m = .ok (key, value) m := by
  have hroom : m.stack.length < m.capacity := by
    rw [depth] at hr
    omega
  have hk : m.arrayKey id position = key := by
    simp only [arrayKey, ha, Option.bind_some, hkey, Option.getD_some]
  have hv : m.getArray id key = value := by
    simp only [getArray, ha, Option.bind_some, hsound.get?_of_getElem? hentry, Option.getD_some]
  have hfirst : ask .arrayKey [.int id, .int position] m = .ok key m :=
    ask_run hs hr (hk ▸ push_run (m.arrayKey id position) hroom)
  have hsecond : ask .getArray [.int id, key] m = .ok value m :=
    ask_run hs hr (hv ▸ push_run (m.getArray id key) hroom)
  simp only [visit, Bind.bind, EStateM.bind, hfirst, hsecond]
  rfl

/-- A walk gives all entries in order and leaves the machine as it was. -/
theorem walk_run (ha : m.arrays.get? id = some a) (hsound : a.IsSound) (hs : m.stopped = none)
    (hr : m.depth + 2 ≤ m.capacity) (hlen : a.length < 2 ^ 31) :
    walk id m = .ok a.entries m := by
  have hroom : m.stack.length < m.capacity := by
    rw [depth] at hr
    omega
  have hn : m.lenArray id = Int32.ofNat a.length := by
    simp only [lenArray, ha]
  have hask : ask .lenArray [.int id] m = .ok (.int (Int32.ofNat a.length)) m :=
    ask_run hs (by simp only [List.length_singleton]; omega)
      (hn ▸ push_run (.int (m.lenArray id)) hroom)
  have hlength : (Int32.ofNat a.length).toInt.toNat = a.entries.length := by
    rw [Int32.toInt_ofNat_of_lt hlen, Int.toNat_natCast, a.length_entries]
  have hall : (List.range a.entries.length).mapM (fun i => visit id (Int32.ofNat i)) m =
      .ok a.entries m := by
    refine mapM_range_run fun i entry he => ?_
    have hi : i < a.entries.length := (List.getElem?_eq_some_iff.mp he).1
    rw [a.length_entries] at hi
    have hpos : (Int32.ofNat i).toInt = i := Int32.toInt_ofNat_of_lt (by omega)
    have hentry : a.entries[(Int32.ofNat i).toInt.toNat]? = some entry := by
      rw [hpos, Int.toNat_natCast, he]
    have hkey : a.keyAt? (Int32.ofNat i) = some entry.1 := by
      refine ValueArray.keyAt?_eq_some_iff.mpr ⟨by omega, ?_⟩
      rw [ValueArray.keys_getElem?, hentry, Option.map_some]
    exact visit_run ha hsound hs hr hkey hentry
  simp only [walk, Bind.bind, EStateM.bind, hask]
  rw [← hall, ← hlength]
  rfl

end Walk

end Machine

open ValueArray Machine

namespace ArrayStore

/-- An array that a store comes to have holds its entries at the positions below its length, under
keys that differ from position to position. The key at a position finds the value that stands there,
and whatever key finds a value is, without the fraction in a list, the key at one position and no
other. Setting a key that is there moves no key, and a new key of a map comes last. So a script that
asks for key and element at each position gets every entry once and in order. A position has 31
bits: positions reach all entries of a list, and of a map unless it has more than that. -/
theorem positions_of_run {rs : List Request} {id : Int32} {a : ValueArray}
    (h : (run {} rs).1.get? id = some a) :
    (∀ position : Int32,
      (a.keyAt? position).isSome ↔ 0 ≤ position.toInt ∧ position.toInt < a.length) ∧
      (∀ (p q : Int32) key, a.keyAt? p = some key → a.keyAt? q = some key → p = q) ∧
      (∀ (p : Int32) key, a.keyAt? p = some key →
        ∃ value, a.entries[p.toInt.toNat]? = some (key, value) ∧ a.get? key = some value) ∧
      (∀ key, (a.get? key).isSome → (∃! i : Nat, a.keys[i]? = some (a.keyOf key)) ∧
        ((a.isMap → a.length ≤ 2 ^ 31) → ∃! p : Int32, a.keyAt? p = some (a.keyOf key))) ∧
      (∀ key value, (a.get? key).isSome →
        ∃ b, ((run {} rs).1.set id key value).get? id = some b ∧ b.keys = a.keys) ∧
      (∀ key value, a.isMap → a.get? key = none →
        ∃ b, ((run {} rs).1.set id key value).get? id = some b ∧
          b.entries = a.entries ++ [(key, value)]) ∧
      ∀ m : Machine, m.arrays = (run {} rs).1 → m.stopped = none → m.depth + 2 ≤ m.capacity →
        (a.isMap → a.length < 2 ^ 31) → walk id m = .ok a.entries m := by
  have hsound := isSound_of_run h
  refine ⟨a.isSome_keyAt?_iff, fun p q key => hsound.keyAt?_inj, fun p key => ?_, fun key hk => ?_,
    fun key value hk => ?_, fun key value hmap hk => ?_, fun m hm hs hr hlen => ?_⟩
  · exact hsound.exists_entry_of_keyAt?
  · exact ⟨hsound.existsUnique_index hk, fun hlen =>
      hsound.existsUnique_keyAt? hk (hsound.length_le (by decide) hlen)⟩
  · obtain ⟨b, hb, hkeys⟩ := hsound.exists_set? hk value
    exact ⟨b, get?_set_of_set? h hb, hkeys⟩
  · cases a with
    | list items => cases hmap
    | map es => exact ⟨_, get?_set_of_set? h (set?_of_get?_eq_none hk), rfl⟩
  · have hle : a.length ≤ 2 ^ 31 - 1 :=
      hsound.length_le (by decide) fun hmap => Nat.le_sub_one_of_lt (hlen hmap)
    exact walk_run (hm ▸ h) hsound hs hr (Nat.lt_of_le_sub_one (by decide) hle)

/-- A map with both zeros and one that is no number as keys. The first key is set twice and keeps
its position, and a walk meets each of the three once. -/
theorem positions_of_run_zeros :
    let rs : List Request := [.create (-1), .set 1 (.float ⟨0x80000000⟩) (.int 8),
      .set 1 (.float ⟨0x7FC00000⟩) (.int 6), .set 1 (.float ⟨0⟩) (.int 9),
      .set 1 (.float ⟨0x80000000⟩) (.int 5)]
    let a : ValueArray := .map [(.float ⟨0x80000000⟩, .int 5), (.float ⟨0x7FC00000⟩, .int 6),
      (.float ⟨0⟩, .int 9)]
    let m : Machine := { stack := [.int 7], capacity := 3, arrays := (run {} rs).1 }
    (run {} rs).1.get? 1 = some a ∧ walk 1 m = .ok a.entries m ∧
      (∃! p : Int32, a.keyAt? p = some (.float ⟨0⟩)) ∧
      ∃ b, ((run {} rs).1.set 1 (.int 0) (.int 4)).get? 1 = some b ∧
        b.entries = a.entries ++ [(.int 0, .int 4)] := by
  intro rs a m
  have h : (run {} rs).1.get? 1 = some a := by decide +kernel
  obtain ⟨-, -, -, hone, -, hnew, hwalk⟩ := positions_of_run h
  exact ⟨h, hwalk m rfl rfl (by decide) fun _ => by decide,
    (hone (.float ⟨0⟩) (by decide +kernel)).2 fun _ => by decide,
    hnew (.int 0) (.int 4) rfl (by decide +kernel)⟩

end ArrayStore

end StackScript
