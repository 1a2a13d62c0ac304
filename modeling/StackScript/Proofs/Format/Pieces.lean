import StackScript.Format.Template
import StackScript.Proofs.Text.Cut

/-!
# What a template prints

A template falls into pieces from left to right, and prints the text of each, however long. The
output is the longest beginning of all that which fits (`format?_isLongestPrefix`).

* `pieces` splits a template, `Piece.text` is what a piece prints, `printed` all of it.
* `finish_foldl_read` is the invariant of a run: the output so far, followed by as much as fits of
  the text that waits and of what the rest of the template prints.
-/

namespace StackScript.Format

open Text

/-! ## Pieces -/

/-- A piece of a template. What a conversion collects after its percent sign leaves out length
modifiers. -/
inductive Piece where
  | literal (c : Char)
  /-- A conversion that a second percent sign ends. -/
  | percent (collected : List Char)
  /-- A conversion that a letter ends. -/
  | conversion (collected : List Char) (letter : Char)
  /-- A conversion that the template does not end. -/
  | unfinished (collected : List Char)
  deriving DecidableEq, Repr

/-- Whether a character ends an open conversion. -/
def endsConversion (c : Char) : Bool := c == '%' || (c.isAlpha && !isLengthModifier c)

/-- What an open conversion collects of the characters that follow. -/
def collect (cs : List Char) : List Char :=
  (cs.takeWhile fun c => !endsConversion c).filter fun c => !isLengthModifier c

/-- The pieces of a template. -/
def pieces : List Char → List Piece
  | [] => []
  | c :: cs =>
    if c = '%' then
      let rest := cs.dropWhile fun c => !endsConversion c
      match rest.head? with
      | none => [.unfinished (collect cs)]
      | some d =>
        (if d = '%' then .percent (collect cs) else .conversion (collect cs) d) :: pieces rest.tail
    else .literal c :: pieces cs
termination_by cs => cs.length
decreasing_by
  · have h := (List.dropWhile_sublist (l := cs) fun c => !endsConversion c).length_le
    simp only [List.length_tail, List.length_cons]
    omega
  · simp

/-! ## The text of a piece -/

/-- The letters that print an argument. -/
def printingLetters : List Char := "diuoxXcfFeEgGaAps".toList

/-- The letter as which a letter is read: a letter for texts prints only texts so. -/
def readAs (arg : Value) (letter : Char) : Char :=
  if letter = 's' ∨ letter = 'S' ∨ letter = 'Z' then (if arg.isString then 's' else 'd')
  else if letter = 'n' then 'd'
  else letter

/-- The argument of the `k`-th conversion, counted from 1, that takes one. -/
def argumentOf (args : List Value) (k : Nat) : Value :=
  args[min k args.length - 1]?.getD (.int 0)

/-- Whether a value is an object of the host. -/
def isObject : Value → Bool
  | .pointer _ => true
  | _ => false

/-- What a conversion prints of an argument; itself, if its letter prints nothing. -/
def conversionText (strings : Strings) (arg : Value) (collected : List Char) (letter : Char) :
    List Char :=
  if readAs arg letter ∈ printingLetters ∨ isObject arg then
    (render? strings (.ofChars collected) (readAs arg letter) arg).getD []
  else '%' :: collected ++ [letter]

/-- The number of arguments that a piece takes. -/
def Piece.takes : Piece → Nat
  | conversion _ _ => 1
  | _ => 0

/-- What a piece prints after pieces that took `taken` arguments. -/
def Piece.text (strings : Strings) (args : List Value) (taken : Nat) : Piece → List Char
  | literal c => [c]
  | percent collected | unfinished collected => '%' :: collected
  | conversion collected letter =>
    conversionText strings (argumentOf args (taken + 1)) collected letter

/-- What pieces print after others that took `taken` arguments. -/
def printed (strings : Strings) (args : List Value) : Nat → List Piece → List Char
  | _, [] => []
  | taken, p :: ps => p.text strings args taken ++ printed strings args (taken + p.takes) ps

/-! ## Splitting one character further -/

/-- The pieces from an open conversion on that has collected something. -/
def piecesOpen (collected : List Char) (cs : List Char) : List Piece :=
  match cs.dropWhile fun c => !endsConversion c with
  | [] => [.unfinished (collected ++ collect cs)]
  | d :: rest =>
    (if d = '%' then .percent (collected ++ collect cs)
      else .conversion (collected ++ collect cs) d) :: pieces rest

theorem pieces_nil : pieces [] = [] := by rw [pieces]

theorem pieces_percent (cs : List Char) : pieces ('%' :: cs) = piecesOpen [] cs := by
  rw [pieces, if_pos rfl, piecesOpen]
  split
  · rename_i h
    simp [h]
  · rename_i d rest h
    simp [h]

theorem pieces_literal {c : Char} (cs : List Char) (h : c ≠ '%') :
    pieces (c :: cs) = .literal c :: pieces cs := by
  rw [pieces, if_neg h]

theorem piecesOpen_nil (collected : List Char) :
    piecesOpen collected [] = [.unfinished collected] := by
  simp [piecesOpen, collect]

theorem piecesOpen_percent (collected cs : List Char) :
    piecesOpen collected ('%' :: cs) = .percent collected :: pieces cs := by
  simp [piecesOpen, collect, endsConversion]

theorem piecesOpen_letter {c : Char} (collected cs : List Char) (hp : c ≠ '%')
    (hm : isLengthModifier c = false) (ha : c.isAlpha = true) :
    piecesOpen collected (c :: cs) = .conversion collected c :: pieces cs := by
  have he : endsConversion c = true := by simp [endsConversion, hm, ha]
  simp [piecesOpen, collect, he, hp]

theorem piecesOpen_modifier {c : Char} (collected cs : List Char) (hp : c ≠ '%')
    (hm : isLengthModifier c = true) :
    piecesOpen collected (c :: cs) = piecesOpen collected cs := by
  have he : endsConversion c = false := by simp [endsConversion, hp, hm]
  simp [piecesOpen, collect, he, hm]

theorem piecesOpen_other {c : Char} (collected cs : List Char) (hp : c ≠ '%')
    (hm : isLengthModifier c = false) (ha : c.isAlpha = false) :
    piecesOpen collected (c :: cs) = piecesOpen (collected ++ [c]) cs := by
  have he : endsConversion c = false := by simp [endsConversion, hp, ha]
  simp [piecesOpen, collect, he, hm]

/-! ## Printing an argument -/

theorem argument_eq_argumentOf (args : List Value) (taken : Nat) :
    argument args taken = argumentOf args (taken + 1) := by
  rw [argument, argumentOf, List.getD_eq_getElem?_getD]
  congr 2
  omega

/-- A letter prints as the letter as which it is read. -/
theorem forArgument?_readAs (letter : Char) (arg : Value) :
    Conversion.forArgument? (readAs arg letter) arg = Conversion.forArgument? letter arg := by
  unfold readAs
  split
  · rename_i h
    rcases h with rfl | rfl | rfl <;> cases arg <;> rfl
  · split
    · rename_i h
      subst h
      cases arg <;> rfl
    · rfl

theorem ofLetter?_isSome_iff {letter : Char} :
    (Conversion.ofLetter? letter).isSome ↔
      letter ∈ printingLetters ∨ letter = 'n' ∨ letter = 'S' ∨ letter = 'Z' := by
  constructor
  · intro h
    unfold Conversion.ofLetter? at h
    split at h
    case h_21 => cases h
    all_goals decide
  · have hp : (printingLetters.all fun l => (Conversion.ofLetter? l).isSome) = true := by decide
    rintro (h | rfl | rfl | rfl)
    · exact List.all_eq_true.mp hp letter h
    all_goals rfl

theorem forArgument?_isSome {letter : Char} {arg : Value} :
    (Conversion.forArgument? letter arg).isSome = (Conversion.ofLetter? letter).isSome := by
  unfold Conversion.forArgument?
  generalize Conversion.ofLetter? letter = conversion
  rcases conversion with _ | _ | _ | _ <;> cases arg <;> rfl

theorem readAs_ne (arg : Value) (letter : Char) :
    readAs arg letter ≠ 'n' ∧ readAs arg letter ≠ 'S' ∧ readAs arg letter ≠ 'Z' := by
  unfold readAs
  split
  · cases arg.isString <;> decide
  · split
    · decide
    · rename_i h hn
      simp only [not_or] at h
      exact ⟨hn, h.2.1, h.2.2⟩

/-- What a run prints at a letter is the text of the conversion that the letter ends. -/
theorem getD_render? (strings : Strings) (arg : Value) (collected : List Char) (letter : Char) :
    (render? strings (.ofChars collected) letter arg).getD ('%' :: collected ++ [letter]) =
      conversionText strings arg collected letter := by
  have hs : (Conversion.forArgument? (readAs arg letter) arg).isSome ↔
      readAs arg letter ∈ printingLetters := by
    obtain ⟨hn, hS, hZ⟩ := readAs_ne arg letter
    rw [forArgument?_isSome, ofLetter?_isSome_iff]
    simp [hn, hS, hZ]
  cases arg with
  | pointer address => simp [conversionText, isObject, render?]
  | int n | float x | string handle =>
    unfold conversionText
    split
    · rename_i h
      have h' := hs.mpr (by simpa [isObject] using h)
      obtain ⟨conversion, hc⟩ := Option.isSome_iff_exists.mp h'
      simp only [render?, hc, ← forArgument?_readAs letter, Option.map_some, Option.getD_some]
    · rename_i h
      have h' := mt hs.mp fun hm => h (.inl hm)
      have hc := Option.not_isSome_iff_eq_none.mp h'
      simp only [render?, ← forArgument?_readAs letter, hc, Option.map_none, Option.getD_none]

/-! ## The run -/

namespace Progress

section

variable {strings : Strings} {args : List Value} {p : Progress}

/-- What a run still has to print: the text that waits, and the rest of the template. -/
def ahead (strings : Strings) (args : List Value) (p : Progress) (cs : List Char) : List Char :=
  p.plain ++ printed strings args p.taken (match p.opened with
    | none => pieces cs
    | some collected => piecesOpen collected cs)

theorem out_emit (piece : List Char) :
    (p.emit piece).out = p.out ++ cut (maxOutput - size p.out) (p.plain ++ piece) := by
  unfold emit append
  dsimp only
  split
  · rw [cut_eq_self (by omega)]
  · rfl

theorem emit_eq (piece : List Char) : p.emit piece = { p.emit piece with taken := p.taken } := by
  unfold emit append
  dsimp only
  split <;> rfl

/-- A run whose output is full goes on without an effect. -/
theorem foldl_read_of_full (h : p.full = true) (cs : List Char) :
    cs.foldl (read strings args) p = p := by
  induction cs with
  | nil => rfl
  | cons c cs ih =>
    rw [List.foldl_cons, show read strings args p c = p by simp [read, h]]
    exact ih

/-- A run goes on after a piece as the cut of the piece and of what follows it demands, be the
output full by then or not. -/
theorem finish_foldl_emit {cs : List Char} {q : Progress} (piece : List Char) (taken : Nat)
    (hp : p.full = false) (hq : q = { p.emit piece with taken })
    (ih : q.full = false → (cs.foldl (read strings args) q).finish =
      q.out ++ cut (maxOutput - size q.out) (q.ahead strings args cs)) :
    (cs.foldl (read strings args) q).finish =
      p.out ++ cut (maxOutput - size p.out)
        (p.plain ++ (piece ++ printed strings args taken (pieces cs))) := by
  have hout : q.out = p.out ++ cut (maxOutput - size p.out) (p.plain ++ piece) := by
    rw [hq]
    exact out_emit piece
  rw [← List.append_assoc]
  by_cases hroom : size (p.plain ++ piece) < maxOutput - size p.out
  · have hfull : q.full = false := by
      rw [hq]
      simpa only [emit, append, if_pos hroom] using hp
    have hahead : q.ahead strings args cs = printed strings args taken (pieces cs) := by
      rw [hq]
      rfl
    rw [cut_eq_self (by omega)] at hout
    rw [ih hfull, hahead, cut_append_of_le _ (by omega), hout, size_append, List.append_assoc,
      Nat.sub_sub]
  · have hfull : q.full = true := by
      rw [hq]
      simp only [emit, append, if_neg hroom]
    rw [foldl_read_of_full hfull, cut_append_of_ge _ (by omega), ← hout]
    simp only [finish, hfull, if_true]

/-- The invariant of a run: the output holds what was printed so far, and in the end as much of the
rest as fits. -/
theorem finish_foldl_read (cs : List Char) (hp : p.full = false) :
    (cs.foldl (read strings args) p).finish =
      p.out ++ cut (maxOutput - size p.out) (p.ahead strings args cs) := by
  induction cs generalizing p with
  | nil =>
    simp only [List.foldl_nil, finish, hp, ahead]
    cases p.opened with
    | none => simp [out_emit, pieces_nil, printed]
    | some collected => simp [out_emit, piecesOpen_nil, printed, Piece.text]
  | cons c cs ih =>
    rw [List.foldl_cons]
    cases ho : p.opened with
    | none =>
      by_cases hc : c = '%'
      · have hr : read strings args p c = { p with opened := some [] } := by simp [read, hp, ho, hc]
        rw [hr, ih]
        · simp [ahead, ho, hc, pieces_percent]
        · exact hp
      · have hr : read strings args p c = { p with plain := p.plain ++ [c] } := by
          simp [read, hp, ho, hc]
        rw [hr, ih]
        · simp [ahead, ho, pieces_literal cs hc, printed, Piece.text, Piece.takes]
        · exact hp
    | some collected =>
      by_cases hc : c = '%'
      · have hr : read strings args p c = { p.emit ('%' :: collected) with taken := p.taken } := by
          rw [← emit_eq]
          simp [read, hp, ho, hc]
        rw [finish_foldl_emit _ _ hp hr fun h => ih h]
        simp [ahead, ho, hc, piecesOpen_percent, printed, Piece.text, Piece.takes]
      cases hm : isLengthModifier c with
      | true =>
        have hr : read strings args p c = p := by simp [read, hp, ho, hc, hm]
        rw [hr, ih hp]
        simp [ahead, ho, piecesOpen_modifier collected cs hc hm]
      | false =>
        cases ha : c.isAlpha with
        | true =>
          have hr : read strings args p c = p.convert strings args collected c := by
            simp [read, hp, ho, hc, hm, ha]
          rw [convert, getD_render?, argument_eq_argumentOf] at hr
          rw [finish_foldl_emit _ _ hp hr fun h => ih h]
          simp [ahead, ho, piecesOpen_letter collected cs hc hm ha, printed, Piece.text,
            Piece.takes]
        | false =>
          have hr : read strings args p c = { p with opened := some (collected ++ [c]) } := by
            simp [read, hp, ho, hc, hm, ha]
          rw [hr, ih]
          · simp [ahead, ho, piecesOpen_other collected cs hc hm ha]
          · exact hp

end

end Progress

/-! ## The whole template -/

/-- A template that is not overlong prints the longest beginning that fits of what its pieces print,
whichever texts the string values have and whatever the arguments are. -/
theorem format?_isLongestPrefix (strings : Strings) (template : String) (args : List Value)
    (h : size template.toList ≤ maxTemplate) :
    ∃ out, format? strings template args = .ok out ∧
      IsLongestPrefix maxOutput (printed strings args 0 (pieces template.toList)) out.toList := by
  have hout : (template.toList.foldl (Progress.read strings args) {}).finish =
      cut maxOutput (printed strings args 0 (pieces template.toList)) :=
    Progress.finish_foldl_read template.toList rfl
  refine ⟨String.ofList (template.toList.foldl (Progress.read strings args) {}).finish, ?_, ?_⟩
  · simp only [format?, if_neg (Nat.not_lt.mpr h)]
  · rw [String.toList_ofList, hout]
    exact isLongestPrefix_cut maxOutput (printed strings args 0 (pieces template.toList))

/-- The room left by the number is one byte, and the text needs two. -/
theorem format?_isLongestPrefix_split_char :
    size "%5119d%hs|%Z%5%%k".toList ≤ maxTemplate ∧
      ∃ out, format? (fun _ => some "é") "%5119d%hs|%Z%5%%k" [.int 7, .string 0] = .ok out ∧
        IsLongestPrefix maxOutput (printed (fun _ => some "é") [.int 7, .string 0] 0
          (pieces "%5119d%hs|%Z%5%%k".toList)) out.toList :=
  ⟨by decide, format?_isLongestPrefix _ _ _ (by decide)⟩

example : pieces "a%5%%hls|%".toList =
    [.literal 'a', .percent ['5'], .conversion [] 's', .literal '|', .unfinished []] := by
  decide +kernel

end StackScript.Format
