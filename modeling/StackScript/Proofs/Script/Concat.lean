import StackScript.Proofs.Script.Words
import StackScript.Proofs.Text.Lines
import StackScript.Script.Parse

/-!
# Scripts put one after the other

A script is read line by line: no state of the reader goes from one line to the next, and a line
counts whether or not there is a command on it.

* `parseFrom_append`: the lines of one script after those of another.
* `parseFrom_add`: the number of the first line is added to every number that is given.
* `parseFrom_lines_concat`: a line feed at the end of a script does not matter.
* `mem_of_parseFrom`: the commands are those of the lines, each with the number of its own.
* `parse_append` puts these together for texts.
-/

namespace StackScript.Script

open Text

/-- A command as many lines further down. -/
def Line.after (m : Nat) (l : Line) : Line := { l with number := m + l.number }

/-- A fault as many lines further down. -/
def Fault.after (m : Nat) (f : Fault) : Fault := { f with line := m + f.line }

/-! ## One line -/

/-- A carriage return at the end of a line does not count. -/
theorem parseLine_concat_return (l : List Char) : parseLine (l ++ ['\r']) = parseLine l := by
  have hblank : isBlank '\r' = true := by decide
  rw [parseLine, parseLine, Token.scan_concat_of_blank l hblank]
  cases Token.scan l with
  | none => rfl
  | some ws => simp only [parseWords, trim_concat_of_blank l hblank]

/-! ## Lines after lines -/

/-- Lines are read after other lines, unless one of those is wrong. -/
theorem parseFrom_append (n : Nat) (ks ls : List (List Char)) :
    parseFrom n (ks ++ ls) =
      (do
        let xs ← parseFrom n ks
        let ys ← parseFrom (n + ks.length) ls
        pure (xs ++ ys)) := by
  induction ks generalizing n with
  | nil =>
    rw [List.nil_append, parseFrom]
    exact (bind_pure (parseFrom n ls)).symm
  | cons k ks ih =>
    have hlength : n + (k :: ks).length = n + 1 + ks.length := by
      rw [List.length_cons]
      omega
    rw [List.cons_append, parseFrom, parseFrom, hlength]
    cases parseLine k with
    | error cause => rfl
    | ok command =>
      cases command with
      | none => exact ih (n + 1)
      | some command => simp only [ih (n + 1), bind_assoc, pure_bind, List.cons_append]

/-- Every number that is given counts from the number of the first line. -/
theorem parseFrom_add (m n : Nat) (ls : List (List Char)) :
    parseFrom (m + n) ls =
      match parseFrom n ls with
      | .error f => .error (f.after m)
      | .ok cs => .ok (cs.map (Line.after m)) := by
  induction ls generalizing n with
  | nil => rfl
  | cons l ls ih =>
    rw [parseFrom, parseFrom, Nat.add_assoc, ih (n + 1)]
    cases parseLine l with
    | error cause => rfl
    | ok command =>
      cases command with
      | none => rfl
      | some command => cases parseFrom (n + 1) ls <;> rfl

/-- A line feed at the end of a text adds a line without a command, or takes a carriage return
away. -/
theorem parseFrom_lines_concat (n : Nat) (a : List Char) :
    parseFrom n (lines (a ++ ['\n'])) = parseFrom n (lines a) := by
  rcases lines_concat_cases a with h | ⟨ls, l, l', hl, hl', hlast⟩
  · rw [h, parseFrom_append]
    cases parseFrom n (lines a) with
    | error f => rfl
    | ok cs => exact congrArg Except.ok (List.append_nil cs)
  · have hparse : parseLine l' = parseLine l := by
      rcases hlast with rfl | rfl
      · rfl
      · rw [parseLine_concat_return]
    rw [hl, hl', parseFrom_append, parseFrom_append, parseFrom.eq_2 _ l', parseFrom.eq_2 _ l, hparse]

/-! ## The numbers of the lines -/

/-- What is read are the commands of the lines, in order, each with the number of its line. -/
theorem mem_of_parseFrom {n : Nat} {ls : List (List Char)} {cs : List Line}
    (h : parseFrom n ls = .ok cs) :
    cs.Pairwise (·.number < ·.number) ∧
      ∀ c, c ∈ cs ↔ ∃ i l, c.number = n + i ∧ ls[i]? = some l ∧
        parseLine l = .ok (some c.command) := by
  induction ls generalizing n cs with
  | nil =>
    obtain rfl : [] = cs := Except.ok.inj h
    simp
  | cons l ls ih =>
    -- The line with index 0 is the first one, all others have their indices raised by one.
    have hsplit (c : Line) :
        (∃ i l', c.number = n + i ∧ (l :: ls)[i]? = some l' ∧
          parseLine l' = .ok (some c.command)) ↔
        (c.number = n ∧ parseLine l = .ok (some c.command)) ∨
          ∃ i l', c.number = n + 1 + i ∧ ls[i]? = some l' ∧
            parseLine l' = .ok (some c.command) := by
      constructor
      · rintro ⟨_ | i, l', hi, hl', hc⟩
        · obtain rfl : l = l' := by simpa using hl'
          exact .inl ⟨hi, hc⟩
        · exact .inr ⟨i, l', by omega, by simpa using hl', hc⟩
      · rintro (⟨hi, hc⟩ | ⟨i, l', hi, hl', hc⟩)
        · exact ⟨0, l, hi, rfl, hc⟩
        · exact ⟨i + 1, l', by omega, by simpa using hl', hc⟩
    simp only [hsplit]
    rw [parseFrom] at h
    cases hline : parseLine l with
    | error cause =>
      rw [hline] at h
      cases h
    | ok command =>
      rw [hline] at h
      cases command with
      | none =>
        obtain ⟨hsorted, hmem⟩ := ih h
        exact ⟨hsorted, fun c => by simp [hmem c]⟩
      | some command =>
        cases hrest : parseFrom (n + 1) ls with
        | error f =>
          simp only [hrest] at h
          cases h
        | ok rest =>
          simp only [hrest] at h
          obtain rfl : ⟨n, command⟩ :: rest = cs := Except.ok.inj h
          obtain ⟨hsorted, hmem⟩ := ih hrest
          refine ⟨List.pairwise_cons.mpr ⟨fun c hc => ?_, hsorted⟩, fun c => ?_⟩
          · obtain ⟨i, -, hi, -⟩ := (hmem c).mp hc
            simp only [hi]
            omega
          · rw [List.mem_cons, hmem c]
            refine or_congr_left ⟨?_, ?_⟩
            · rintro rfl
              exact ⟨rfl, rfl⟩
            · rintro ⟨rfl, hc⟩
              obtain rfl : command = c.command := by simpa using hc
              rfl

/-! ## Texts -/

/-- A script after another one, with a line feed between them, is read as the two are: the first
fault is that of the earlier script if it has one, and numbers of lines in the later one count on
from the lines of the earlier. Of every script that is read, the commands are those of its lines, in
order, each with the number of its line. -/
theorem parse_append :
    (∀ a b : String,
      parse (a ++ "\n" ++ b) =
        match parse a with
        | .error f => .error f
        | .ok xs =>
          match parse b with
          | .error f => .error (f.after (a.toList.count '\n' + 1))
          | .ok ys => .ok (xs ++ ys.map (Line.after (a.toList.count '\n' + 1)))) ∧
      ∀ (text : String) (cs : List Line), parse text = .ok cs →
        cs.Pairwise (·.number < ·.number) ∧
          ∀ c, c ∈ cs ↔ ∃ i l, c.number = 1 + i ∧ (lines text.toList)[i]? = some l ∧
            parseLine l = .ok (some c.command) := by
  refine ⟨fun a b => ?_, fun text cs h => mem_of_parseFrom h⟩
  have htext : (a ++ "\n" ++ b).toList = a.toList ++ '\n' :: b.toList := by
    simp
  unfold parse
  rw [htext, lines_append, parseFrom_append, parseFrom_lines_concat, length_lines_concat,
    Nat.add_comm 1, parseFrom_add]
  cases parseFrom 1 (lines a.toList) with
  | error f => rfl
  | ok xs => cases parseFrom 1 (lines b.toList) <;> rfl

/-- Blanks, a carriage return, a comment and an empty line: the commands stand on the first and the
fourth line. -/
theorem parse_append_numbers :
    let a := "\tprint\r\n; \"note"
    let b := "\nprint"
    parse a = .ok [⟨1, .print⟩] ∧ parse b = .ok [⟨2, .print⟩] ∧
      parse (a ++ "\n" ++ b) = .ok [⟨1, .print⟩, ⟨4, .print⟩] ∧
      ∃ i l, 4 = 1 + i ∧ (lines (a ++ "\n" ++ b).toList)[i]? = some l ∧
        parseLine l = .ok (some .print) := by
  intro a b
  have ha : parse a = .ok [⟨1, .print⟩] := by decide +kernel
  have hb : parse b = .ok [⟨2, .print⟩] := by decide +kernel
  have hcount : a.toList.count '\n' = 1 := by decide +kernel
  have hboth : parse (a ++ "\n" ++ b) = .ok [⟨1, .print⟩, ⟨4, .print⟩] := by
    rw [parse_append.1 a b, ha, hb, hcount]
    rfl
  obtain ⟨-, hmem⟩ := parse_append.2 _ _ hboth
  exact ⟨ha, hb, hboth, (hmem ⟨4, .print⟩).mp (by decide)⟩

end StackScript.Script
