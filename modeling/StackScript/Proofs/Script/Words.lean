import Mathlib
import StackScript.Proofs.Text.Trim
import StackScript.Script.Token

/-!
# Words as they are written

The words of a line are read back whatever blanks stand between them and whatever comment ends the
line.

* `Token.write` writes a word; `Token.scan_write` says that it is read back before a blank, before a
  comment and at the end of a line.
* `Layout` says what is written around the words, `Layout.scan_line` that all words are read back.
* `Token.scan_concat_of_blank`: a blank at the end of a line does not count.
-/

namespace StackScript.Script

open Text

namespace Token

/-- A word as it is written. -/
def write : Token → List Char
  | bare text => text.toList
  | quoted text => quote text

/-- A bare word that is read as one word: it holds no blank and no semicolon and does not begin with
a double quote. A word in quotes may hold anything. -/
def IsPlain : Token → Prop
  | bare text =>
    text.toList ≠ [] ∧ text.toList.head? ≠ some '"' ∧ ∀ c ∈ text.toList, isBlank c = false ∧ c ≠ ';'
  | quoted _ => True

theorem isPlain_of_toNat {word : List Char} (hne : word ≠ [])
    (h : ∀ c ∈ word, 35 ≤ c.toNat ∧ c.toNat ≤ 126 ∧ c ≠ ';') :
    (bare (String.ofList word)).IsPlain := by
  rw [Token.IsPlain, String.toList_ofList]
  refine ⟨hne, fun hq => ?_, fun c hc => ?_⟩
  · exact absurd (h _ (List.mem_of_head? hq)).1 (by decide)
  · obtain ⟨hlow, hhigh, hcomment⟩ := h c hc
    exact ⟨isBlank_of_toNat (by omega) hhigh, hcomment⟩

/-- Text before which a word ends: it is empty or begins with a blank or a comment. -/
def Breaks (cs : List Char) : Prop := ∀ c ∈ cs.head?, isBlank c = true ∨ c = ';'

variable {c : Char} {cs : List Char}

theorem scan_cons_of_blank (cs : List Char) (h : isBlank c = true) : scan (c :: cs) = scan cs := by
  simp only [scan, scanFrom, h, if_true]

theorem scan_append_of_blank {bs : List Char} (h : ∀ c ∈ bs, isBlank c = true) (cs : List Char) :
    scan (bs ++ cs) = scan cs := by
  induction bs with
  | nil => rfl
  | cons b bs ih =>
    obtain ⟨hb, hbs⟩ := List.forall_mem_cons.mp h
    rw [List.cons_append, scan_cons_of_blank _ hb, ih hbs]

theorem scan_comment (cs : List Char) : scan (';' :: cs) = some [] := by
  simp [scan, scanFrom, show isBlank ';' = false by decide]

/-- A bare word ends where it is cut off. -/
theorem scanFrom_bare_of_breaks (read : List Char) (h : Breaks cs) :
    scanFrom (.bare read) cs = (scan cs).map (ofBare read :: ·) := by
  cases cs with
  | nil => rfl
  | cons c cs =>
    rcases h c rfl with hc | rfl
    · rw [scan_cons_of_blank cs hc, scanFrom, if_pos hc]
      rfl
    · rw [scan_comment, scanFrom, if_neg (by decide), if_pos rfl]
      rfl

theorem scanFrom_bare_append {word : List Char} (read : List Char)
    (hw : ∀ c ∈ word, isBlank c = false ∧ c ≠ ';') (h : Breaks cs) :
    scanFrom (.bare read) (word ++ cs) =
      (scan cs).map (ofBare (word.reverse ++ read) :: ·) := by
  induction word generalizing read with
  | nil => exact scanFrom_bare_of_breaks read h
  | cons c word ih =>
    obtain ⟨⟨hblank, hcomment⟩, hword⟩ := List.forall_mem_cons.mp hw
    rw [List.cons_append, scanFrom, if_neg (by simp [hblank]), if_neg hcomment, ih _ hword]
    simp

/-- A word is read back. -/
theorem scan_write {w : Token} (hw : w.IsPlain) (h : Breaks cs) :
    scan (w.write ++ cs) = (scan cs).map (w :: ·) := by
  cases w with
  | quoted text => exact scan_quote text cs
  | bare text =>
    obtain ⟨hne, hquote, hword⟩ := hw
    obtain ⟨c, word, hc⟩ := List.exists_cons_of_ne_nil hne
    have htext : ofBare (word.reverse ++ [c]) = .bare text := by
      rw [ofBare, List.reverse_append, List.reverse_reverse, List.reverse_singleton,
        List.singleton_append, ← hc, String.ofList_toList]
    rw [hc] at hquote hword
    obtain ⟨⟨hblank, hcomment⟩, hword⟩ := List.forall_mem_cons.mp hword
    have hq : c ≠ '"' := fun e => hquote (congrArg some e)
    rw [write, hc, List.cons_append, scan, scanFrom, if_neg (by simp [hblank]), if_neg hcomment,
      if_neg hq, scanFrom_bare_append [c] hword h, htext]

/-- A blank at the end of a line does not count, also not where a word is cut off. -/
theorem scan_concat_of_blank (cs : List Char) (h : isBlank c = true) :
    scan (cs ++ [c]) = scan cs := by
  have hquote : c ≠ '"' := by
    rintro rfl
    exact absurd h (by decide)
  have hslash : c ≠ '\\' := by
    rintro rfl
    exact absurd h (by decide)
  have hfrom (state : State) : scanFrom state (cs ++ [c]) = scanFrom state cs := by
    induction cs generalizing state with
    | nil => cases state <;> simp [scanFrom, h, hquote, hslash]
    | cons d cs ih => cases state <;> simp only [List.cons_append, scanFrom, ih]
  exact hfrom .between

theorem newline_not_mem_write {w : Token} (hw : w.IsPlain) : '\n' ∉ w.write := by
  cases w with
  | bare text => exact fun h => absurd (hw.2.2 _ h).1 (by decide)
  | quoted text =>
    have hescape (d : Char) : '\n' ∉ escape d := by
      unfold escape
      split_ifs with h₁ h₂ h₃ h₄
      · decide
      · decide
      · decide
      · decide
      · exact fun h => h₃ (List.mem_singleton.mp h).symm
    simp only [write, quote, List.cons_append, List.mem_cons, List.mem_append, List.mem_flatMap]
    rintro (h | ⟨d, -, h⟩ | h)
    · exact absurd h (by decide)
    · exact hescape d h
    · exact absurd h (by simp)

end Token

/-! ## Lines of words -/

/-- A blank that is written between words. -/
inductive Pad where
  | space
  | tab
  deriving DecidableEq, Repr

/-- The character of a blank. -/
def Pad.char : Pad → Char
  | space => ' '
  | tab => '\t'

theorem Pad.isBlank_char (p : Pad) : isBlank p.char = true := by
  cases p <;> rfl

/-- What a comment says: anything on one line. -/
structure Remark where
  text : List Char
  newline_not_mem : '\n' ∉ text

/-- What is written around the words of a line, and which digits in base sixteen are written in
capitals. -/
structure Layout where
  indent : List Pad := []
  /-- What separates a word from the one before it, with the number of the separator. -/
  gap : Nat → Pad × List Pad := fun _ => (.space, [])
  trail : List Pad := []
  remark : Option Remark := none
  capital : Nat → Bool := fun _ => false

namespace Layout

open Token

variable {cs : List Char}

/-- Blanks as they are written. -/
def pads (ps : List Pad) : List Char := ps.map Pad.char

/-- What separates two words. -/
def separator (l : Layout) (i : Nat) : List Char := pads ((l.gap i).1 :: (l.gap i).2)

/-- Words with a separator before each, the separators counted from a number. -/
def join (l : Layout) (i : Nat) : List Token → List Char
  | [] => []
  | w :: ws => l.separator i ++ w.write ++ l.join (i + 1) ws

/-- The end of a line: blanks, and a comment after a semicolon. -/
def ending (l : Layout) : List Char :=
  pads l.trail ++ match l.remark with
    | none => []
    | some r => ';' :: r.text

/-- A line of words. -/
def line (l : Layout) (w : Token) (ws : List Token) : List Char :=
  pads l.indent ++ w.write ++ l.join 0 ws ++ l.ending

/-- A line that has one space between two words and nothing else. -/
theorem line_pair (v w : Token) : ({} : Layout).line v [w] = v.write ++ ' ' :: w.write := by
  simp [line, join, separator, pads, ending, Pad.char]

theorem isBlank_of_mem_pads {ps : List Pad} {c : Char} (h : c ∈ pads ps) : isBlank c = true := by
  obtain ⟨p, -, rfl⟩ := List.mem_map.mp h
  exact p.isBlank_char

theorem breaks_pads {ps : List Pad} (h : Breaks cs) : Breaks (pads ps ++ cs) := by
  cases ps with
  | nil => exact h
  | cons p ps =>
    intro c hc
    cases hc
    exact .inl p.isBlank_char

theorem breaks_ending (l : Layout) : Breaks l.ending := by
  refine breaks_pads ?_
  cases l.remark with
  | none => exact fun c hc => by cases hc
  | some r =>
    intro c hc
    cases hc
    exact .inr rfl

theorem breaks_join (l : Layout) (i : Nat) (ws : List Token) (h : Breaks cs) :
    Breaks (l.join i ws ++ cs) := by
  cases ws with
  | nil => exact h
  | cons w ws =>
    intro c hc
    cases hc
    exact .inl (l.gap i).1.isBlank_char

theorem scan_pads (ps : List Pad) (cs : List Char) : scan (pads ps ++ cs) = scan cs :=
  scan_append_of_blank (fun _ => isBlank_of_mem_pads) cs

theorem scan_ending (l : Layout) : scan l.ending = some [] := by
  rw [ending, scan_pads]
  cases l.remark with
  | none => rfl
  | some r => exact scan_comment r.text

theorem scan_join (l : Layout) (i : Nat) {ws : List Token} (hws : ∀ w ∈ ws, w.IsPlain)
    (h : Breaks cs) : scan (l.join i ws ++ cs) = (scan cs).map (ws ++ ·) := by
  induction ws generalizing i with
  | nil => simp [join]
  | cons w ws ih =>
    obtain ⟨hw, hws⟩ := List.forall_mem_cons.mp hws
    rw [join, List.append_assoc, List.append_assoc, separator, scan_pads,
      scan_write hw (l.breaks_join _ ws h), ih _ hws, Option.map_map]
    rfl

/-- The words of a line are read back. -/
theorem scan_line (l : Layout) {w : Token} {ws : List Token} (hw : w.IsPlain)
    (hws : ∀ w ∈ ws, w.IsPlain) : scan (l.line w ws) = some (w :: ws) := by
  rw [line, List.append_assoc, List.append_assoc, scan_pads,
    scan_write hw (l.breaks_join 0 ws l.breaks_ending), scan_join l 0 hws l.breaks_ending,
    scan_ending, Option.map_some, Option.map_some, List.append_nil]

theorem line_ne_nil (l : Layout) {w : Token} {ws : List Token} (hw : w.IsPlain)
    (hws : ∀ w ∈ ws, w.IsPlain) : l.line w ws ≠ [] := by
  intro h
  have hscan := l.scan_line hw hws
  rw [h] at hscan
  cases hscan

theorem newline_not_mem_pads (ps : List Pad) : '\n' ∉ pads ps := by
  intro h
  obtain ⟨p, -, hp⟩ := List.mem_map.mp h
  cases p <;> exact absurd hp (by decide)

theorem newline_not_mem_join (l : Layout) (i : Nat) {ws : List Token}
    (hws : ∀ w ∈ ws, w.IsPlain) : '\n' ∉ l.join i ws := by
  induction ws generalizing i with
  | nil => exact List.not_mem_nil
  | cons w ws ih =>
    obtain ⟨hw, hws⟩ := List.forall_mem_cons.mp hws
    simp only [join, List.mem_append, not_or]
    exact ⟨⟨newline_not_mem_pads _, newline_not_mem_write hw⟩, ih _ hws⟩

theorem newline_not_mem_line (l : Layout) {w : Token} {ws : List Token} (hw : w.IsPlain)
    (hws : ∀ w ∈ ws, w.IsPlain) : '\n' ∉ l.line w ws := by
  have hending : '\n' ∉ l.ending := by
    unfold ending
    cases l.remark with
    | none => simpa using newline_not_mem_pads l.trail
    | some r => simpa using ⟨newline_not_mem_pads l.trail, r.newline_not_mem⟩
  simp only [line, List.mem_append, not_or]
  exact ⟨⟨⟨newline_not_mem_pads _, newline_not_mem_write hw⟩, l.newline_not_mem_join 0 hws⟩,
    hending⟩

end Layout

end StackScript.Script
