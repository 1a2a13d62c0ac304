import StackScript.Proofs.Script.RoundTrip

/-!
# Words in base sixteen

The word after `op` or `push` may give a number in base sixteen after `0x`. Three readers try such a
word: one for integers in base ten, one for base sixteen and one for floats. Only the second takes
any of them.

* `parseOpcode_hex`, `parseLiteral_hex`: what a word after `0x` is read as.
* `parse_pair` takes a line of two words to its second one, and `parse_hex` puts these together for
  texts of one line.
-/

namespace StackScript.Script

open Text Numeral

/-! ## Words -/

theorem splitSign_hex (ds : List Char) :
    splitSign ('0' :: 'x' :: ds) = (false, '0' :: 'x' :: ds) :=
  splitSign_of_isDigit _ (by decide)

/-- No number in base ten has an `x` after its first digit. -/
theorem int32Of?_hex (ds : List Char) : int32Of? ('0' :: 'x' :: ds) = none := by
  have hten : natOf? 10 ('0' :: 'x' :: ds) = none := by
    refine if_neg fun h => ?_
    exact absurd (List.all_eq_true.mp h.2 'x' (by simp)) (by decide)
  simp only [int32Of?, splitSign_hex, hten]

/-- Nor has a float: its numeral ends before the `x`. -/
theorem ofLiteral?_hex (ds : List Char) : Single.ofLiteral? ('0' :: 'x' :: ds) = none := by
  have hlower : Single.lower ('0' :: 'x' :: ds) = '0' :: 'x' :: Single.lower ds := rfl
  have hleading : Decimal.leading? ('0' :: 'x' :: ds) = some (⟨0, 0⟩, 'x' :: ds) := rfl
  rw [Single.ofLiteral?, splitSign_hex]
  simp [hlower, hleading]

variable {d : String}

theorem toList_hex : ("0x" ++ d).toList = '0' :: 'x' :: d.toList := String.toList_append

/-- An opcode is read from what writes a number of 16 bits. -/
theorem parseOpcode_hex {code : UInt16} : parseOpcode (.bare ("0x" ++ d)) = .ok code ↔
    ∃ n < 2 ^ 16, Reads 16 d.toList n ∧ code = UInt16.ofNat n := by
  have hread (n : Nat) : natBelow? UInt16.size 16 d.toList = some n ↔
      n < 2 ^ 16 ∧ Reads 16 d.toList n := natBelow?_eq_some_iff
  simp only [parseOpcode, toList_hex]
  constructor
  · intro h
    split at h
    · rename_i n hn
      exact ⟨n, ((hread n).mp hn).1, ((hread n).mp hn).2, (Except.ok.inj h).symm⟩
    · cases h
  · rintro ⟨n, hlt, hn, rfl⟩
    rw [(hread n).mpr ⟨hlt, hn⟩]

/-- A literal is read from what writes a number of 32 bits, and is the integer with these bits. -/
theorem parseLiteral_hex {v : Literal} : parseLiteral (.bare ("0x" ++ d)) = .ok v ↔
    ∃ n < 2 ^ 32, Reads 16 d.toList n ∧ v = .int (UInt32.ofNat n).toInt32 := by
  have hread (n : Nat) : natBelow? UInt32.size 16 d.toList = some n ↔
      n < 2 ^ 32 ∧ Reads 16 d.toList n := natBelow?_eq_some_iff
  simp only [parseLiteral, toList_hex, int32Of?_hex, hexInt?, Option.none_or]
  constructor
  · intro h
    cases hn : natBelow? UInt32.size 16 d.toList with
    | none =>
      rw [hn, Option.map_none, ofLiteral?_hex] at h
      cases h
    | some n =>
      rw [hn, Option.map_some] at h
      exact ⟨n, ((hread n).mp hn).1, ((hread n).mp hn).2, (Except.ok.inj h).symm⟩
  · rintro ⟨n, hlt, hn, rfl⟩
    rw [(hread n).mpr ⟨hlt, hn⟩, Option.map_some]

/-! ## Lines -/

/-- A word that is read as one: it holds no blank and no semicolon. -/
def IsUnbroken (s : String) : Prop := ∀ c ∈ s.toList, isBlank c = false ∧ c ≠ ';'

theorem IsUnbroken.isPlain_hex (h : IsUnbroken d) : (Token.bare ("0x" ++ d)).IsPlain := by
  rw [Token.IsPlain, toList_hex]
  refine ⟨List.cons_ne_nil _ _, by simp, ?_⟩
  simp only [List.forall_mem_cons]
  exact ⟨by decide, by decide, h⟩

/-- A text that is one line of two words gives the command that is made of what the second word is
read as. -/
theorem parse_pair {α : Type} {read : Except Cause α} {f : α → Command} {text : String}
    {v w : Token} {ls : List Line} (ht : text.toList = ({} : Layout).line v [w]) (hv : v.IsPlain)
    (hw : w.IsPlain) (hwords : parseWords text.toList [v, w] = do pure (some (f (← read)))) :
    parse text = .ok ls ↔ ∃ a, read = .ok a ∧ ls = [⟨1, f a⟩] := by
  rw [parse_line {} ht hv (List.forall_mem_singleton.mpr hw), hwords]
  cases read with
  | error cause => simp
  | ok a => simp [eq_comm]

/-- A text that is one line of two words, where the second one is read as what its number in base
sixteen stands for. -/
theorem parse_pair_hex {α : Type} {read : Except Cause α} {f : α → Command} {g : Nat → α}
    {bound : Nat} {text : String} {v : Token} {ls : List Line}
    (ht : text.toList = ({} : Layout).line v [.bare ("0x" ++ d)]) (hv : v.IsPlain)
    (h : IsUnbroken d)
    (hwords : parseWords text.toList [v, .bare ("0x" ++ d)] = do pure (some (f (← read))))
    (hread : ∀ a, read = .ok a ↔ ∃ n < bound, Reads 16 d.toList n ∧ a = g n) :
    parse text = .ok ls ↔ ∃ n < bound, Reads 16 d.toList n ∧ ls = [⟨1, f (g n)⟩] := by
  rw [parse_pair ht hv h.isPlain_hex hwords]
  constructor
  · rintro ⟨a, ha, hls⟩
    obtain ⟨n, hlt, hn, rfl⟩ := (hread a).mp ha
    exact ⟨n, hlt, hn, hls⟩
  · rintro ⟨n, hlt, hn, hls⟩
    exact ⟨g n, (hread _).mpr ⟨n, hlt, hn, rfl⟩, hls⟩

/-- What follows `0x`, without blanks and semicolons, is read if it writes a number in base sixteen,
and only then: after `op` a number of 16 bits, as the opcode, and after `push` one of 32 bits, as the
integer with these bits. A plus sign may stand before the digits. -/
theorem parse_hex (h : IsUnbroken d) (ls : List Line) :
    (parse ("op 0x" ++ d) = .ok ls ↔
      ∃ n < 2 ^ 16, Reads 16 d.toList n ∧ ls = [⟨1, .op (UInt16.ofNat n)⟩]) ∧
    (parse ("push 0x" ++ d) = .ok ls ↔
      ∃ n < 2 ^ 32, Reads 16 d.toList n ∧
        ls = [⟨1, .push (.int (UInt32.ofNat n).toInt32)⟩]) := by
  constructor
  · have ht : ("op 0x" ++ d).toList = ({} : Layout).line (.bare "op") [.bare ("0x" ++ d)] := by
      rw [Layout.line_pair, Token.write, Token.write, toList_hex]
      simp
    exact parse_pair_hex (f := .op) ht (Command.op 0).isPlain_keyword h rfl
      fun _ => parseOpcode_hex
  · have ht : ("push 0x" ++ d).toList =
        ({} : Layout).line (.bare "push") [.bare ("0x" ++ d)] := by
      rw [Layout.line_pair, Token.write, Token.write, toList_hex]
      simp
    exact parse_pair_hex (f := .push) ht (Command.push (.int 0)).isPlain_keyword h rfl
      fun _ => parseLiteral_hex

/-- A plus sign does not count. -/
theorem parse_hex_plus : IsUnbroken "+8210" ∧
    parse ("op 0x" ++ "+8210") = .ok [⟨1, .op 0x8210⟩] ∧ ¬ ∃ n, Writes 16 "+8210".toList n := by
  have h : IsUnbroken "+8210" := by
    simp [IsUnbroken, isBlank, blankRanges]
  have hdigits : Writes 16 ['8', '2', '1', '0'] 0x8210 :=
    ⟨by decide, by simp [isDigit, digitValue], rfl⟩
  refine ⟨h, (parse_hex h _).1.mpr ⟨0x8210, by decide, .inr ⟨_, rfl, hdigits⟩, rfl⟩, ?_⟩
  rintro ⟨n, hn⟩
  exact not_writes_plus hn

end StackScript.Script
