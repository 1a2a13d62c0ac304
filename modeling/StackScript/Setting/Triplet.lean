import StackScript.Error
import StackScript.Text.Utf8
import StackScript.Text.Split

/-!
# Names of settings

A script names a setting as `file|heading|key`.

* `Triplet.parse` splits at the first two bars, so that the key may hold more of them;
  `Triplet.text` writes the name back (`parse_text`, `text_of_parse`).
-/

namespace StackScript

open Text

/-- The parts of the name of a setting. -/
structure Triplet where
  file : String
  heading : String
  key : String
  deriving DecidableEq, Repr

namespace Triplet

/-- The most bytes of the file name. -/
def maxFile : Nat := 63

/-- The most bytes of the heading. -/
def maxHeading : Nat := 32

/-- The parts, joined by bars. -/
def text (t : Triplet) : String :=
  String.ofList (t.file.toList ++ '|' :: (t.heading.toList ++ '|' :: t.key.toList))

/-- Splits the name of a setting into parts of the lengths allowed. -/
def ofChars? (cs : List Char) : Option Triplet :=
  match splitOnce? '|' cs with
  | none => none
  | some (file, rest) =>
    match splitOnce? '|' rest with
    | none => none
    | some (heading, key) =>
      if size file ≤ maxFile ∧ size heading ≤ maxHeading then
        some ⟨String.ofList file, String.ofList heading, String.ofList key⟩
      else none

/-- Splits the name of a setting. -/
def parse (name : String) : Except Error Triplet :=
  match ofChars? name.toList with
  | some t => .ok t
  | none => .error (.malformedTriplet name)

/-- Whether file and heading can be told apart from the bars and have the lengths allowed. -/
def IsName (t : Triplet) : Prop :=
  '|' ∉ t.file.toList ∧ '|' ∉ t.heading.toList ∧
    size t.file.toList ≤ maxFile ∧ size t.heading.toList ≤ maxHeading

/-- The parts of a name are read back. -/
theorem parse_text {t : Triplet} (h : t.IsName) : parse t.text = .ok t := by
  obtain ⟨hf, hh, sf, sh⟩ := h
  simp [parse, ofChars?, text, splitOnce?_append _ hf, splitOnce?_append _ hh, sf, sh]

/-- The parts that are read make up the name. -/
theorem text_of_parse {name : String} {t : Triplet} (h : parse name = .ok t) :
    t.text = name ∧ t.IsName := by
  unfold parse at h
  split at h
  · rename_i u hu
    obtain rfl : u = t := by simpa using h
    unfold ofChars? at hu
    split at hu
    · cases hu
    · rename_i file rest hs
      split at hu
      · cases hu
      · rename_i heading key hs'
        split at hu
        · rename_i hl
          obtain ⟨e, hf⟩ := splitOnce?_eq_some_iff.mp hs
          obtain ⟨e', hh⟩ := splitOnce?_eq_some_iff.mp hs'
          simp only [Option.some.injEq] at hu
          subst hu
          refine ⟨?_, by simpa using hf, by simpa using hh, by simpa using hl.1,
            by simpa using hl.2⟩
          apply String.ext
          simp [text, e, e']
        · cases hu
  · cases h

end Triplet

end StackScript
