import StackScript.Operation
import StackScript.Proofs.Script.RoundTrip

/-!
# Names in quotes

A text in quotes may be pushed, and it may name the operation to call. What is pushed is the text
itself; a name has lost the double quotes at its beginning, those of the text too.

* `callName_spec`: what is left of a name, and `callName_quoted_eq_iff` when all of it is left.
* `parse_quoted` is the statement for all texts and lines.
-/

namespace StackScript.Script

variable {x : String}

/-- A name is what follows the double quotes at the beginning of a word. -/
theorem callName_spec (x : String) :
    (∃ k, x.toList = List.replicate k '"' ++ (callName (.quoted x)).toList) ∧
      (callName (.quoted x)).toList.head? ≠ some '"' := by
  have hname : (callName (.quoted x)).toList = x.toList.dropWhile (· == '"') :=
    String.toList_ofList
  rw [hname]
  constructor
  · have hquotes : x.toList.takeWhile (· == '"') =
        List.replicate (x.toList.takeWhile (· == '"')).length '"' := by
      refine List.eq_replicate_iff.mpr ⟨rfl, fun c hc => ?_⟩
      exact beq_iff_eq.mp (List.mem_takeWhile_imp (p := (· == '"')) hc)
    refine ⟨(x.toList.takeWhile (· == '"')).length, ?_⟩
    rw [← hquotes, List.takeWhile_append_dropWhile]
  · intro h
    have hfirst := List.head?_dropWhile_not (· == '"') x.toList
    rw [h] at hfirst
    exact absurd hfirst (by decide)

theorem callName_quoted_eq_iff : callName (.quoted x) = x ↔ x.toList.head? ≠ some '"' := by
  refine ⟨fun h => ?_, callName_quoted⟩
  have hfirst := (callName_spec x).2
  rwa [h] at hfirst

/-- No name of an operation begins with a double quote. -/
theorem head?_ne_of_mem_names (h : x ∈ Operation.names) : x.toList.head? ≠ some '"' := by
  revert x
  decide +kernel

/-- A call that is written with a name in quotes is read as a call of what is left of the name. -/
theorem parse_call_line (x : String) {args : List Literal} (h : ∀ v ∈ args, v.isExact)
    (l : Layout) :
    parse (String.ofList ((Command.call x args).line l)) =
      .ok [⟨1, .call (callName (.quoted x)) args⟩] := by
  have hws : ∀ w ∈ (Command.call x args).operands l.capital, w.IsPlain := by
    refine List.forall_mem_cons.mpr ⟨trivial, fun w hw => ?_⟩
    obtain ⟨v, hv, rfl⟩ := List.mem_map.mp hw
    exact Literal.isPlain_token (h v hv)
  have ht : (String.ofList ((Command.call x args).line l)).toList =
      l.line (.bare (Command.call x args).keyword) ((Command.call x args).operands l.capital) :=
    String.toList_ofList
  rw [parse_line l ht (Command.call x args).isPlain_keyword hws]
  simp only [Command.keyword, Command.operands, parseWords, mapM_parseLiteral h]
  rfl

/-- The line of a word, one space and a text in quotes. -/
theorem append_quote (word x : String) :
    word ++ " " ++ String.ofList (Token.quote x) =
      String.ofList (({} : Layout).line (.bare word) [.quoted x]) := by
  rw [Layout.line_pair, ← String.toList_inj]
  simp [Token.write]

/-- A text in quotes is pushed as it is, whatever characters it has. As a name it is taken without
the double quotes at its beginning, however many there are, and so it is before any integers and
texts as arguments and in any layout of the line. It names what it says exactly if it does not begin
with a double quote; the names of operations do not. -/
theorem parse_quoted (x : String) :
    parse ("push " ++ String.ofList (Token.quote x)) = .ok [⟨1, .push (.text x)⟩] ∧
      ∃ k y, x.toList = List.replicate k '"' ++ y.toList ∧ y.toList.head? ≠ some '"' ∧
        parse ("call " ++ String.ofList (Token.quote x)) = .ok [⟨1, .call y []⟩] ∧
        (∀ (args : List Literal) (l : Layout), (∀ v ∈ args, v.isExact) →
          parse (String.ofList ((Command.call x args).line l)) = .ok [⟨1, .call y args⟩]) ∧
        (y = x ↔ x.toList.head? ≠ some '"') ∧ (x ∈ Operation.names → y = x) := by
  constructor
  · have hpush : (Command.push (.text x)).IsExact := rfl
    have hline := parseFrom_last_line hpush {} 1
    show parse ("push" ++ " " ++ String.ofList (Token.quote x)) = _
    rw [append_quote, parse, String.toList_ofList]
    exact hline
  · obtain ⟨⟨k, hk⟩, hfirst⟩ := callName_spec x
    refine ⟨k, _, hk, hfirst, ?_, fun args l h => parse_call_line x h l, callName_quoted_eq_iff,
      fun hx => callName_quoted (head?_ne_of_mem_names hx)⟩
    show parse ("call" ++ " " ++ String.ofList (Token.quote x)) = _
    rw [append_quote]
    exact parse_call_line x (List.forall_mem_nil _) {}

/-- The name of an operation after a double quote is the name of none. It is pushed with the double
quote, but called without it, with and without arguments; the name alone is called as it is. -/
theorem parse_quoted_table :
    let x := "\"get_metarule_table"
    let y := "get_metarule_table"
    x ∉ Operation.names ∧ y ∈ Operation.names ∧
      parse "push \"\\\"get_metarule_table\"" = .ok [⟨1, .push (.text x)⟩] ∧
      parse "call \"\\\"get_metarule_table\"" = .ok [⟨1, .call y []⟩] ∧
      parse (String.ofList ((Command.call x [.int 1]).line {})) = .ok [⟨1, .call y [.int 1]⟩] ∧
      parse ("call " ++ String.ofList (Token.quote y)) = .ok [⟨1, .call y []⟩] := by
  intro x y
  obtain ⟨hpush, k, name, hk, hfirst, hcall, hargs, -⟩ := parse_quoted x
  have hx : x.toList = '"' :: 'g' :: "et_metarule_table".toList := by decide +kernel
  have hy : 'g' :: "et_metarule_table".toList = y.toList := by decide +kernel
  have hname : name = y := by
    rw [hx] at hk
    rw [← String.toList_inj, ← hy]
    rcases k with _ | _ | k
    · rw [List.replicate_zero, List.nil_append] at hk
      exact absurd (congrArg List.head? hk).symm hfirst
    · exact (List.cons.inj hk).2.symm
    · have hsecond : 'g' = '"' := (List.cons.inj (List.cons.inj hk).2).1
      exact absurd hsecond (by decide)
  rw [hname] at hcall
  have hpushed : "push " ++ String.ofList (Token.quote x) =
      "push \"\\\"get_metarule_table\"" := by decide +kernel
  have hcalled : "call " ++ String.ofList (Token.quote x) =
      "call \"\\\"get_metarule_table\"" := by decide +kernel
  rw [hpushed] at hpush
  rw [hcalled] at hcall
  have hwith := hargs [.int 1] {} (List.forall_mem_singleton.mpr rfl)
  rw [hname] at hwith
  obtain ⟨-, -, own, -, -, hown, -, -, hsame⟩ := parse_quoted y
  rw [hsame (by decide)] at hown
  exact ⟨by decide, by decide, hpush, hcall, hwith, hown⟩

end StackScript.Script
