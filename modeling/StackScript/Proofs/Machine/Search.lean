import StackScript.Proofs.Machine.CallOrder
import StackScript.Proofs.Text.Bytes
import StackScript.Proofs.Text.Find

/-!
# Searching a text

A call of the search answers the least place from a start on, and a script that searches again from
one past each answer comes to all places.

* `CanSearch`: what a search needs of a machine, which it keeps (`CanSearch.logged`).
* `find_run_in`, `find_run_outside`: what a call answers; `isAnswer_firstPlace`: the answer is the
  least place.
* `Visits`: the answers of a script that searches until there is none. The script comes to an end
  (`CanSearch.exists_visits`), in one way (`Visits.unique`).
* `find_least` is the statement about single calls and repeated ones.
-/

namespace StackScript.Machine

open Text Numeral

variable {m m' : Machine} {hay needle : Value} {haystack text : String} {start : Int32}

/-! ## One search -/

/-- A running machine that knows the name of the search, a text, and another one to search for. -/
structure CanSearch (m : Machine) (hay needle : Value) (haystack text : String) : Prop where
  running : m.stopped = none
  name : m.HasHandle Operation.find.name
  hay : m.textNamed? hay = some haystack
  needle : m.textNamed? needle = some text

/-- The line that is logged for a start outside of the text. -/
def outsideLine (start : Int32) : String :=
  "string_find: invalid start position " ++ decimalText start.toInt

/-- The machine with the name of the search in its table and more lines in its log. -/
def logged (m : Machine) (lines : Array String) : Machine :=
  { (m.interned Operation.find.name).1 with stack := m.stack, debug := m.debug ++ lines }

@[simp] theorem depth_logged (m : Machine) (lines : Array String) :
    (m.logged lines).depth = m.depth := rfl

@[simp] theorem capacity_logged (m : Machine) (lines : Array String) :
    (m.logged lines).capacity = m.capacity := capacity_interned m Operation.find.name

/-- The place that is found from a start on, -1 if there is none. -/
def firstPlace (haystack text : String) (start : Int32) : Int32 :=
  ((indexFrom haystack text start.toInt.toNat).map Int32.ofNat).getD (-1)

/-- An answer is the least place from a start on where a text occurs, or -1 where there is none. -/
def IsAnswer (haystack text : String) (start answer : Int32) : Prop :=
  (∃ i : ℕ, answer.toInt = i ∧ IsLeast {j | start.toInt.toNat ≤ j ∧
      Occurs (encode text.toList) (encode haystack.toList) j} i) ∨
    answer = -1 ∧ ∀ j, start.toInt.toNat ≤ j →
      ¬ Occurs (encode text.toList) (encode haystack.toList) j

theorem CanSearch.logged (h : m.CanSearch hay needle haystack text) (lines : Array String) :
    (m.logged lines).CanSearch hay needle haystack text where
  running := (stopped_interned m _).trans h.running
  name := h.name.interned
  hay := textNamed?_interned_of_textNamed? _ h.hay
  needle := textNamed?_interned_of_textNamed? _ h.needle

/-- The place that is found is an answer. -/
theorem isAnswer_firstPlace (hlen : size haystack.toList < 2 ^ 31)
    (hin : start.toInt ≤ size haystack.toList) :
    IsAnswer haystack text start (firstPlace haystack text start) := by
  have hstart : start.toInt.toNat ≤ (encode haystack.toList).length := by
    rw [length_encode]
    omega
  unfold firstPlace
  cases hfound : indexFrom haystack text start.toInt.toNat with
  | some i =>
    have hleast := isLeast_of_indexFrom hstart hfound
    have hle := hleast.1.2.add_length_le
    rw [length_encode haystack.toList] at hle
    exact .inl ⟨i, Int32.toInt_ofNat_of_lt (by omega), hleast⟩
  | none => exact .inr ⟨rfl, fun j => not_occurs_of_indexFrom hstart hfound⟩

namespace CanSearch

variable (h : m.CanSearch hay needle haystack text) {args : List Value}
  (hargs : args = [hay, needle, .int start] ∨ args = [hay, needle] ∧ start = 0)
  (hr : m.depth + args.length + 1 ≤ m.capacity)
include h hargs hr

/-- Without a start, the search starts at the beginning. -/
theorem find_run : callNamed Operation.find.name args m =
    .ok () ((Operation.place (m.interned Operation.find.name).1 haystack text start).1.on
      ((Operation.place (m.interned Operation.find.name).1 haystack text start).2 :: m.stack)) := by
  have hhay := textNamed?_interned_of_textNamed? Operation.find.name h.hay
  have hneedle := textNamed?_interned_of_textNamed? Operation.find.name h.needle
  have hhay' : (m.textNamed? hay).isSome := by rw [h.hay]; rfl
  have hneedle' : (m.textNamed? needle).isSome := by rw [h.needle]; rfl
  have htakes : m.Takes Operation.find.signatures args := by
    rcases hargs with rfl | ⟨rfl, -⟩
    · exact ⟨[.text, .text, .number], by decide,
        .cons hhay' (.cons hneedle' (.cons (.inl rfl) .nil))⟩
    · exact ⟨[.text, .text], by decide, .cons hhay' (.cons hneedle' .nil)⟩
  obtain ⟨m', result, hmeaning, hcall⟩ := callNamed_run h.running htakes h.name hr
  have hplace : Operation.find.meaning (m.interned Operation.find.name).1 args =
      some (Operation.place (m.interned Operation.find.name).1 haystack text start) := by
    rcases hargs with rfl | ⟨rfl, rfl⟩
    · exact (bind_of_some hhay _).trans ((bind_of_some hneedle _).trans rfl)
    · exact (bind_of_some hhay _).trans ((bind_of_some hneedle _).trans rfl)
  rw [hcall, Option.some.inj (hplace.symm.trans hmeaning)]

theorem find_run_in (hin : 0 ≤ start.toInt ∧ start.toInt < size haystack.toList) :
    callNamed Operation.find.name args m =
      .ok () ((m.logged #[]).on (.int (firstPlace haystack text start) :: m.stack)) := by
  rw [h.find_run hargs hr, Operation.place, if_pos hin, Machine.logged, Array.append_empty,
    ← debug_interned m Operation.find.name]
  rfl

theorem find_run_outside (hout : ¬ (0 ≤ start.toInt ∧ start.toInt < size haystack.toList)) :
    callNamed Operation.find.name args m =
      .ok () ((m.logged #[outsideLine start]).on (.int (-1) :: m.stack)) := by
  rw [h.find_run hargs hr, Operation.place, if_neg hout, Machine.logged,
    ← Array.push_eq_append, ← debug_interned m Operation.find.name]
  rfl

end CanSearch

/-! ## Searching again -/

/-- Searches from a start on and takes the answer. -/
def search (hay needle : Value) (start : Int32) : Action Value := do
  callNamed Operation.find.name [hay, needle, .int start]
  pop

/-- A script that searches from a start on, and again from one past each answer until there is none,
gets these answers and ends on this machine. -/
inductive Visits (hay needle : Value) : Machine → Int32 → List Int32 → Machine → Prop
  | stop {m m' : Machine} {start : Int32} (h : search hay needle start m = .ok (.int (-1)) m') :
    Visits hay needle m start [] m'
  | again {m m₁ m' : Machine} {start answer : Int32} {answers : List Int32}
    (h : search hay needle start m = .ok (.int answer) m₁) (hfound : answer ≠ -1)
    (hrest : Visits hay needle m₁ (answer + 1) answers m') :
    Visits hay needle m start (answer :: answers) m'

/-- Such a script has one run. -/
theorem Visits.unique {as bs : List Int32} {m₁ m₂ : Machine} (h : Visits hay needle m start as m₁)
    (h' : Visits hay needle m start bs m₂) : bs = as ∧ m₂ = m₁ := by
  induction h generalizing bs m₂ with
  | stop h =>
    cases h' with
    | stop h' =>
      rw [h] at h'
      cases h'
      exact ⟨rfl, rfl⟩
    | again h' hfound _ =>
      rw [h] at h'
      cases h'
      exact absurd rfl hfound
  | again h hfound _ ih =>
    cases h' with
    | stop h' =>
      rw [h] at h'
      cases h'
      exact absurd rfl hfound
    | again h' _ hrest =>
      rw [h] at h'
      cases h'
      obtain ⟨rfl, rfl⟩ := ih hrest
      exact ⟨rfl, rfl⟩

namespace CanSearch

variable (h : m.CanSearch hay needle haystack text) (hr : m.depth + 4 ≤ m.capacity)
include h hr

theorem search_in (hin : 0 ≤ start.toInt ∧ start.toInt < size haystack.toList) :
    search hay needle start m = .ok (.int (firstPlace haystack text start)) (m.logged #[]) := by
  have hcall := h.find_run_in (.inl rfl) hr hin
  simp only [search, Bind.bind, EStateM.bind, hcall]
  rfl

theorem search_outside (hout : ¬ (0 ≤ start.toInt ∧ start.toInt < size haystack.toList)) :
    search hay needle start m = .ok (.int (-1)) (m.logged #[outsideLine start]) := by
  have hcall := h.find_run_outside (.inl rfl) hr hout
  simp only [search, Bind.bind, EStateM.bind, hcall]
  rfl

end CanSearch

/-- A place where a text occurs from a start before the end on is itself before the end. -/
theorem lt_of_isLeast {bytes found : List UInt8} {k i : ℕ} (hk : k < bytes.length)
    (hi : IsLeast {j | k ≤ j ∧ Occurs found bytes j} i) : i < bytes.length := by
  by_cases hn : found = []
  · refine lt_of_le_of_lt (hi.2 ⟨le_rfl, ?_⟩) hk
    rw [hn]
    exact occurs_nil hk.le
  · exact hi.1.2.lt hn

/-- From any place on, the script comes to an end. Its answers are the places where the text occurs,
in order. -/
theorem CanSearch.exists_visits (h : m.CanSearch hay needle haystack text)
    (hr : m.depth + 4 ≤ m.capacity) (hlen : size haystack.toList < 2 ^ 31) {k : ℕ}
    (hk : k ≤ size haystack.toList) :
    ∃ (places : List ℕ) (m' : Machine), Visits hay needle m (.ofNat k) (places.map .ofNat) m' ∧
      places.Pairwise (· < ·) ∧ ∀ i, i ∈ places ↔ k ≤ i ∧ i < size haystack.toList ∧
        Occurs (encode text.toList) (encode haystack.toList) i := by
  obtain ⟨n, hn⟩ : ∃ n, k + n = size haystack.toList := ⟨_, Nat.add_sub_of_le hk⟩
  have hstart : (Int32.ofNat k).toInt = k := Int32.toInt_ofNat_of_lt (by omega)
  induction n using Nat.strongRecOn generalizing m k with
  | _ n ih =>
    by_cases hin : k < size haystack.toList
    · have hstart' : 0 ≤ (Int32.ofNat k).toInt ∧ (Int32.ofNat k).toInt < size haystack.toList := by
        omega
      have hfound := h.search_in hr hstart'
      have hfirst : IsAnswer haystack text (.ofNat k) (firstPlace haystack text (.ofNat k)) :=
        isAnswer_firstPlace hlen hstart'.2.le
      rcases hfirst with ⟨i, hi, hleast⟩ | ⟨hnone, hno⟩
      · rw [hstart, Int.toNat_natCast] at hleast
        have hlt := lt_of_isLeast (by rwa [length_encode]) hleast
        rw [length_encode] at hlt
        have hanswer : firstPlace haystack text (.ofNat k) = Int32.ofNat i := by
          rw [← Int32.toInt_inj, hi, Int32.toInt_ofNat_of_lt (by omega)]
        have hki : k ≤ i := hleast.1.1
        have hnext : i + 1 ≤ size haystack.toList := hlt
        obtain ⟨places, m', hvisits, hsorted, hmem⟩ := ih (size haystack.toList - (i + 1))
          (by omega) (h.logged #[]) (by rwa [depth_logged, capacity_logged]) hnext
          (Nat.add_sub_of_le hnext) (Int32.toInt_ofNat_of_lt (by omega))
        rw [hanswer] at hfound hi
        rw [Int32.ofNat_add] at hvisits
        refine ⟨i :: places, m', .again hfound (fun hnone => ?_) hvisits, ?_, fun j => ?_⟩
        · have hminus : (-1 : Int32).toInt = -1 := by decide
          rw [hnone, hminus] at hi
          omega
        · exact List.pairwise_cons.mpr ⟨fun j hj => ((hmem j).mp hj).1, hsorted⟩
        · rw [List.mem_cons, hmem]
          constructor
          · rintro (rfl | ⟨hle, hj⟩)
            · exact ⟨hki, hlt, hleast.1.2⟩
            · exact ⟨by omega, hj⟩
          · rintro ⟨hle, hj⟩
            rcases Nat.eq_or_lt_of_le (hleast.2 ⟨hle, hj.2⟩) with rfl | hafter
            · exact .inl rfl
            · exact .inr ⟨hafter, hj⟩
      · rw [hnone] at hfound
        rw [hstart, Int.toNat_natCast] at hno
        exact ⟨[], _, .stop hfound, .nil, fun i => ⟨nofun, fun hi => absurd hi.2.2 (hno i hi.1)⟩⟩
    · have hout : ¬ (0 ≤ (Int32.ofNat k).toInt ∧ (Int32.ofNat k).toInt < size haystack.toList) := by
        omega
      have hend := h.search_outside hr hout
      exact ⟨[], _, .stop hend, .nil, fun i => ⟨nofun, fun hi => by omega⟩⟩

/-- A call of the search with a text, another one to search for and a start answers the least place
from the start on where the other text occurs, which is the start for an empty one, or -1 if there
is none. If the start is outside of the text, it answers -1 and logs a line, and in no other case.
Without a start, the start is 0. A script that searches from 0 and again from one past each answer
comes to an end, and its answers are all places where the other text occurs, once and in order; an
empty text is found at every place before the end. -/
theorem find_least (h : m.CanSearch hay needle haystack text)
    (hlen : size haystack.toList < 2 ^ 31) :
    (∀ start args, args = [hay, needle, .int start] ∨ args = [hay, needle] ∧ start = 0 →
      m.depth + args.length + 1 ≤ m.capacity →
      (¬ (0 ≤ start.toInt ∧ start.toInt < size haystack.toList) →
        callNamed "string_find" args m =
          .ok () ((m.logged #[outsideLine start]).on (.int (-1) :: m.stack))) ∧
      (0 ≤ start.toInt ∧ start.toInt < size haystack.toList →
        ∃ answer, IsAnswer haystack text start answer ∧ (text = "" → answer = start) ∧
          callNamed "string_find" args m = .ok () ((m.logged #[]).on (.int answer :: m.stack)))) ∧
    (m.depth + 4 ≤ m.capacity → ∃ (places : List ℕ) (m' : Machine),
      (∀ answers m'', Visits hay needle m 0 answers m'' ↔
        answers = places.map .ofNat ∧ m'' = m') ∧
      places.Pairwise (· < ·) ∧
      ∀ i, i ∈ places ↔ Occurs (encode text.toList) (encode haystack.toList) i ∧
        (text = "" → i < size haystack.toList)) := by
  refine ⟨fun start args hargs hr => ⟨h.find_run_outside hargs hr, fun hin => ?_⟩, fun hr => ?_⟩
  · have hanswer : IsAnswer haystack text start (firstPlace haystack text start) :=
      isAnswer_firstPlace hlen hin.2.le
    refine ⟨_, hanswer, fun hempty => ?_, h.find_run_in hargs hr hin⟩
    have hhere : Occurs (encode text.toList) (encode haystack.toList) start.toInt.toNat := by
      rw [hempty]
      exact occurs_nil (by rw [length_encode]; omega)
    rcases hanswer with ⟨i, hi, hleast⟩ | ⟨-, hno⟩
    · have hle := hleast.2 ⟨le_rfl, hhere⟩
      have hge := hleast.1.1
      rw [← Int32.toInt_inj]
      omega
    · exact absurd hhere (hno _ le_rfl)
  · obtain ⟨places, m', hvisits, hsorted, hmem⟩ := h.exists_visits hr hlen (Nat.zero_le _)
    refine ⟨places, m', fun answers m'' => ⟨fun h' => hvisits.unique h', ?_⟩, hsorted, fun i => ?_⟩
    · rintro ⟨rfl, rfl⟩
      exact hvisits
    · rw [hmem, and_iff_right (Nat.zero_le i), and_comm]
      refine and_congr_right fun hoccurs => ⟨fun hlt _ => hlt, fun hlt => ?_⟩
      by_cases hempty : text = ""
      · exact hlt hempty
      · rw [← length_encode]
        exact hoccurs.lt fun hnil => hempty (by
          rwa [← String.toList_inj, ← encode_injective.eq_iff])

/-- Two places of one text in another that share a character, and a start at the end. -/
theorem find_least_banana :
    let m : Machine := { stack := [.int 7], strings := #["banana", "ana"] }
    callNamed "string_find" [.string 0, .string 1, .int 6] m =
        .ok () ((m.logged #["string_find: invalid start position 6"]).on [.int (-1), .int 7]) ∧
      ∃ (places : List ℕ) (m' : Machine),
        Visits (.string 0) (.string 1) m 0 (places.map .ofNat) m' ∧
          1 ∈ places ∧ 2 ∉ places ∧ 3 ∈ places := by
  intro m
  have h : m.CanSearch (.string 0) (.string 1) "banana" "ana" :=
    ⟨rfl, hasHandle_of_lt _ (by decide), rfl, rfl⟩
  obtain ⟨hcalls, hscript⟩ := find_least h (by decide)
  obtain ⟨places, m', hvisits, -, hmem⟩ := hscript (by decide)
  have hplace (i : ℕ) : i ∈ places ↔ Occurs (encode "ana".toList) (encode "banana".toList) i :=
    (hmem i).trans (and_iff_left nofun)
  refine ⟨(hcalls 6 _ (.inl rfl) (by decide)).1 (by decide), places, m',
    (hvisits _ _).mpr ⟨rfl, rfl⟩, ?_, ?_, ?_⟩
  · exact (hplace 1).mpr ⟨encode "b".toList, encode "na".toList, by decide, by decide⟩
  · rw [hplace, show encode "banana".toList = 98 :: 97 :: encode "nana".toList by decide,
      occurs_succ_iff, occurs_succ_iff, occurs_zero_iff]
    decide
  · exact (hplace 3).mpr ⟨encode "ban".toList, [], by decide, by decide⟩

end StackScript.Machine
