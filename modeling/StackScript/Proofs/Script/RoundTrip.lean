import StackScript.Proofs.Numeral
import StackScript.Proofs.Script.Words
import StackScript.Proofs.Text.Lines
import StackScript.Script.Parse
import StackScript.Value

/-!
# Scripts are read back

Commands are written one to a line: integers in base ten, texts and names of operations in quotes,
opcodes with four digits in base sixteen. What is written is read back, however the words are spaced
and whatever comments end the lines.

* `Command.line` writes a command, and `written` a list of commands.
* `parseWords_operands`: the words of a command make up the command.
* `parseFrom_line`: a line that was written is read as its command, whatever follows it; `parse_line`
  is about any words on one line.
* `parse_written` is the statement for whole scripts.
-/

namespace StackScript.Script

open Text Numeral

/-! ## Writing commands -/

/-- The word for a literal. A float is shown as scripts print it, which is not always read back. -/
def Literal.token : Literal → Token
  | int n => .bare (decimalText n.toInt)
  | float x => .bare (Value.float x).display
  | text s => .quoted s

/-- Whether a literal is written exactly: all are but floats. -/
def Literal.isExact : Literal → Bool
  | float _ => false
  | int _ | text _ => true

/-- The four digits of an opcode in base sixteen, with capitals where asked for. -/
def hexDigits (capital : Nat → Bool) (code : UInt16) : List Char :=
  (padZeros 4 (digits 16 code.toNat)).mapIdx fun i c => if capital i then c.toUpper else c

namespace Command

/-- The first word of a command. -/
def keyword : Command → String
  | push _ => "push"
  | op _ => "op"
  | call .. => "call"
  | print => "print"

/-- The other words of a command. -/
def operands (capital : Nat → Bool) : Command → List Token
  | push value => [value.token]
  | op code => [.bare (String.ofList ('0' :: 'x' :: hexDigits capital code))]
  | call name args => .quoted name :: args.map Literal.token
  | print => []

/-- Whether a command is written exactly: it holds no float, and the name of a call does not begin
with a double quote. -/
def IsExact : Command → Prop
  | push value => value.isExact
  | call name args => name.toList.head? ≠ some '"' ∧ ∀ v ∈ args, v.isExact
  | op _ | print => True

instance (c : Command) : Decidable c.IsExact :=
  match c with
  | push value => inferInstanceAs (Decidable (value.isExact = true))
  | call name args =>
    inferInstanceAs (Decidable (name.toList.head? ≠ some '"' ∧ ∀ v ∈ args, v.isExact = true))
  | op _ | print => inferInstanceAs (Decidable True)

/-- A command as it is written on a line. -/
def line (c : Command) (l : Layout) : List Char :=
  l.line (.bare c.keyword) (c.operands l.capital)

end Command

/-- Commands, each written with its layout on a line of its own. -/
def written (cs : List (Command × Layout)) : List (List Char) := cs.map fun c => c.1.line c.2

/-- Commands with the numbers of lines that follow each other. -/
def numbered (n : Nat) (cs : List Command) : List Line := (cs.zipIdx n).map fun c => ⟨c.2, c.1⟩

/-! ## Words -/

/-- There are four digits in base sixteen, and they write the opcode. -/
theorem hexDigits_spec (capital : Nat → Bool) (code : UInt16) :
    (hexDigits capital code).length = 4 ∧ (∀ c ∈ hexDigits capital code, isDigit 16 c = true) ∧
      ofDigits 16 (hexDigits capital code) = code.toNat := by
  have hdigit : ∀ c ∈ padZeros 4 (digits 16 code.toNat), isDigit 16 c = true := by
    intro c hc
    rcases List.mem_append.mp hc with hc | hc
    · rw [(List.mem_replicate.mp hc).2]
      rfl
    · exact isDigit_of_mem_digits (by decide) (by decide) hc
  have hvalues : (hexDigits capital code).map digitValue =
      (padZeros 4 (digits 16 code.toNat)).map digitValue := by
    refine List.ext_getElem (by simp [hexDigits]) fun i _ hi => ?_
    simp only [hexDigits, List.getElem_map, List.getElem_mapIdx]
    split
    · exact digitValue_toUpper (hdigit _ (List.getElem_mem _))
    · rfl
  refine ⟨?_, fun c hc => ?_, ?_⟩
  · have hle : (digits 16 code.toNat).length ≤ 4 :=
      (Nat.length_toDigits_le_iff (by decide) (by decide)).mpr code.toNat_lt
    rw [hexDigits, List.length_mapIdx, length_padZeros, max_eq_left hle]
  · have hmem : digitValue c ∈ (padZeros 4 (digits 16 code.toNat)).map digitValue :=
      hvalues ▸ List.mem_map_of_mem hc
    obtain ⟨d, hd, he⟩ := List.mem_map.mp hmem
    rw [isDigit, ← he]
    exact hdigit d hd
  · rw [ofDigits_congr hvalues, ofDigits_padZeros, ofDigits_digits (by decide) (by decide)]

theorem Literal.isPlain_token {v : Literal} (h : v.isExact) : v.token.IsPlain := by
  cases v with
  | float x => cases h
  | text s => exact trivial
  | int n =>
    have hne : decimal n.toInt ≠ [] := by
      unfold decimal
      split
      · exact List.cons_ne_nil _ _
      · exact digits_ne_nil _
    refine Token.isPlain_of_toNat hne fun c hc => ?_
    have hc := toNat_of_mem_decimal hc
    refine ⟨by omega, by omega, ?_⟩
    rintro rfl
    exact absurd hc.2 (by decide)

namespace Command

variable {c : Command} {capital : Nat → Bool}

theorem isPlain_keyword (c : Command) : (Token.bare c.keyword).IsPlain := by
  have hword (s : String) (hne : s.toList ≠ [])
      (hs : ∀ c ∈ s.toList, 35 ≤ c.toNat ∧ c.toNat ≤ 126 ∧ c ≠ ';') : (Token.bare s).IsPlain := by
    have := Token.isPlain_of_toNat hne hs
    rwa [String.ofList_toList] at this
  cases c with
  | push value => exact hword "push" (by decide) (by simp)
  | op code => exact hword "op" (by decide) (by simp)
  | call name args => exact hword "call" (by decide) (by simp)
  | print => exact hword "print" (by decide) (by simp)

theorem isPlain_of_mem_operands (h : c.IsExact) : ∀ w ∈ c.operands capital, w.IsPlain := by
  cases c with
  | push v =>
    rintro w hw
    rw [List.mem_singleton.mp hw]
    exact Literal.isPlain_token h
  | op code =>
    rintro w hw
    rw [List.mem_singleton.mp hw]
    refine Token.isPlain_of_toNat (List.cons_ne_nil _ _) fun d hd => ?_
    rcases List.mem_cons.mp hd with rfl | hd
    · decide
    · rcases List.mem_cons.mp hd with rfl | hd
      · decide
      · have hd := toNat_of_isDigit_sixteen ((hexDigits_spec capital code).2.1 d hd)
        refine ⟨by omega, by omega, ?_⟩
        rintro rfl
        exact absurd hd (by decide)
  | call name args =>
    rintro w hw
    rcases List.mem_cons.mp hw with rfl | hw
    · exact trivial
    · obtain ⟨v, hv, rfl⟩ := List.mem_map.mp hw
      exact Literal.isPlain_token (h.2 v hv)
  | print => exact fun w hw => absurd hw List.not_mem_nil

theorem scan_line (h : c.IsExact) (l : Layout) :
    Token.scan (c.line l) = some (.bare c.keyword :: c.operands l.capital) :=
  l.scan_line c.isPlain_keyword (isPlain_of_mem_operands h)

theorem newline_not_mem_line (h : c.IsExact) (l : Layout) : '\n' ∉ c.line l :=
  l.newline_not_mem_line c.isPlain_keyword (isPlain_of_mem_operands h)

theorem line_ne_nil (h : c.IsExact) (l : Layout) : c.line l ≠ [] :=
  l.line_ne_nil c.isPlain_keyword (isPlain_of_mem_operands h)

end Command

/-! ## Reading commands -/

theorem parseLiteral_token {v : Literal} (h : v.isExact) : parseLiteral v.token = .ok v := by
  cases v with
  | float x => cases h
  | text s => rfl
  | int n =>
    simp only [Literal.token, parseLiteral, decimalText, String.toList_ofList, int32Of?_decimal,
      Option.some_or]

theorem mapM_parseLiteral {vs : List Literal} (h : ∀ v ∈ vs, v.isExact) :
    (vs.map Literal.token).mapM parseLiteral = .ok vs := by
  induction vs with
  | nil => rfl
  | cons v vs ih =>
    obtain ⟨hv, hvs⟩ := List.forall_mem_cons.mp h
    rw [List.map_cons, List.mapM_cons, parseLiteral_token hv, ih hvs]
    rfl

theorem parseOpcode_hexDigits (capital : Nat → Bool) (code : UInt16) :
    parseOpcode (.bare (String.ofList ('0' :: 'x' :: hexDigits capital code))) = .ok code := by
  obtain ⟨hlength, hdigit, hvalue⟩ := hexDigits_spec capital code
  have hne : hexDigits capital code ≠ [] := List.ne_nil_of_length_eq_add_one hlength
  have hread : natBelow? UInt16.size 16 (hexDigits capital code) = some code.toNat :=
    natBelow?_eq_some_iff.mpr ⟨code.toNat_lt, .inl ⟨hne, hdigit, hvalue⟩⟩
  simp only [parseOpcode, String.toList_ofList, hread, UInt16.ofNat_toNat]

theorem callName_quoted {name : String} (h : name.toList.head? ≠ some '"') :
    callName (.quoted name) = name := by
  have hdrop : name.toList.dropWhile (· == '"') = name.toList := by
    cases hn : name.toList with
    | nil => rfl
    | cons c cs =>
      refine List.dropWhile_cons_of_neg fun hc => h ?_
      rw [hn, List.head?_cons, beq_iff_eq.mp hc]
  rw [callName, hdrop, String.ofList_toList]

/-- The words of a command make up the command. -/
theorem parseWords_operands (text : List Char) {c : Command} (h : c.IsExact)
    (capital : Nat → Bool) :
    parseWords text (.bare c.keyword :: c.operands capital) = .ok (some c) := by
  cases c with
  | push v =>
    simp only [Command.keyword, Command.operands, parseWords, parseLiteral_token h]
    rfl
  | op code =>
    simp only [Command.keyword, Command.operands, parseWords, parseOpcode_hexDigits]
    rfl
  | call name args =>
    simp only [Command.keyword, Command.operands, parseWords, callName_quoted h.1,
      mapM_parseLiteral h.2]
    rfl
  | print => rfl

/-! ## Reading scripts -/

section Lines

variable {c : Command}

/-- A line that was written is read as its command, also without a carriage return at its end. -/
theorem parseLine_line (h : c.IsExact) (l : Layout) {text : List Char}
    (ht : c.line l = text ∨ c.line l = text ++ ['\r']) : parseLine text = .ok (some c) := by
  have hscan : Token.scan text = some (.bare c.keyword :: c.operands l.capital) := by
    rw [← Command.scan_line h l]
    rcases ht with ht | ht
    · rw [ht]
    · rw [ht, Token.scan_concat_of_blank text (by decide)]
  rw [parseLine, hscan]
  exact parseWords_operands text h l.capital

theorem parseFrom_cons {n : Nat} {text : List Char} {texts : List (List Char)}
    (h : parseLine text = .ok (some c)) :
    parseFrom n (text :: texts) = (⟨n, c⟩ :: ·) <$> parseFrom (n + 1) texts := by
  rw [parseFrom, h]
  cases parseFrom (n + 1) texts <;> rfl

/-- A line that was written is read as its command, whatever follows it. -/
theorem parseFrom_line (h : c.IsExact) (l : Layout) (n : Nat) (rest : List Char) :
    parseFrom n (lines (c.line l ++ '\n' :: rest)) =
      (⟨n, c⟩ :: ·) <$> parseFrom (n + 1) (lines rest) := by
  obtain ⟨text, hlines, ht⟩ := exists_lines_append rest (Command.newline_not_mem_line h l)
  rw [hlines, parseFrom_cons (parseLine_line h l ht)]

/-- A line that was written is read as its command, at the end of the text. -/
theorem parseFrom_last_line (h : c.IsExact) (l : Layout) (n : Nat) :
    parseFrom n (lines (c.line l)) = .ok [⟨n, c⟩] := by
  rw [lines_of_not_mem (Command.line_ne_nil h l) (Command.newline_not_mem_line h l),
    parseFrom_cons (parseLine_line h l (.inl rfl))]
  rfl

/-- A text that is one line of words has the command that the words make up, or their fault. -/
theorem parse_line {text : String} {w : Token} {ws : List Token} (l : Layout)
    (ht : text.toList = l.line w ws) (hw : w.IsPlain) (hws : ∀ w ∈ ws, w.IsPlain) :
    parse text =
      match parseWords text.toList (w :: ws) with
      | .error cause => .error ⟨1, cause⟩
      | .ok none => .ok []
      | .ok (some c) => .ok [⟨1, c⟩] := by
  have hscan : Token.scan text.toList = some (w :: ws) := ht ▸ l.scan_line hw hws
  have hnewline : '\n' ∉ text.toList := ht ▸ l.newline_not_mem_line hw hws
  have hne : text.toList ≠ [] := ht ▸ l.line_ne_nil hw hws
  have hline : parseLine text.toList = parseWords text.toList (w :: ws) := by
    rw [parseLine, hscan]
  rw [parse, lines_of_not_mem hne hnewline, parseFrom, hline]
  rcases parseWords text.toList (w :: ws) with cause | _ | c <;> rfl

end Lines

theorem numbered_cons (n : Nat) (c : Command) (cs : List Command) :
    numbered n (c :: cs) = ⟨n, c⟩ :: numbered (n + 1) cs := by
  rw [numbered, List.zipIdx_cons]
  rfl

/-- Commands without floats, and with names of operations that do not begin with a double quote, are
written line by line and read back as they were, numbered from 1. They are read back with any blanks
before, between and after the words and any comments, with the last line ended or not. -/
theorem parse_written {cs : List (Command × Layout)} (h : ∀ c ∈ cs, c.1.IsExact) :
    parse (String.ofList (unlines (written cs))) = .ok (numbered 1 (cs.map Prod.fst)) ∧
      parse (String.ofList (['\n'].intercalate (written cs))) =
        .ok (numbered 1 (cs.map Prod.fst)) := by
  simp only [parse, String.toList_ofList]
  generalize 1 = n
  induction cs generalizing n with
  | nil => exact ⟨rfl, rfl⟩
  | cons c cs ih =>
    obtain ⟨hc, hcs⟩ := List.forall_mem_cons.mp h
    obtain ⟨hended, hopen⟩ := ih hcs (n + 1)
    rw [List.map_cons, numbered_cons]
    refine ⟨?_, ?_⟩
    · have htext : unlines (written (c :: cs)) = c.1.line c.2 ++ '\n' :: unlines (written cs) := by
        simp [unlines, written]
      rw [htext, parseFrom_line hc, hended]
      rfl
    · cases cs with
      | nil =>
        simpa [written, numbered] using parseFrom_last_line hc c.2 n
      | cons d cs =>
        have htext : ['\n'].intercalate (written (c :: d :: cs)) =
            c.1.line c.2 ++ '\n' :: ['\n'].intercalate (written (d :: cs)) := by
          simp [written, List.intercalate_cons_cons]
        rw [htext, parseFrom_line hc, hopen]
        rfl

/-- A text with a quote, a semicolon and a carriage return, an opcode in capitals, and a call of an
operation without a name, with a comment that ends in a carriage return. -/
theorem parse_written_spaced :
    let cs : List (Command × Layout) :=
      [(.push (.text "\";\r"), { indent := [.tab] }), (.op 0x82AF, { capital := fun i => i < 3 }),
        (.call "" [.int (-2)],
          { gap := fun _ => (.tab, [.space]), remark := some ⟨"\"\r".toList, by decide⟩ })]
    let text := "\tpush \"\\\";\r\"\nop 0x82Af\ncall\t \"\"\t -2;\"\r\n"
    (∀ c ∈ cs, c.1.IsExact) ∧ String.ofList (unlines (written cs)) = text ∧
      parse text =
        .ok [⟨1, .push (.text "\";\r")⟩, ⟨2, .op 0x82AF⟩, ⟨3, .call "" [.int (-2)]⟩] := by
  intro cs text
  have h : ∀ c ∈ cs, c.1.IsExact := by decide
  have htext : String.ofList (unlines (written cs)) = text := by decide +kernel
  exact ⟨h, htext, htext ▸ (parse_written h).1⟩

end StackScript.Script
