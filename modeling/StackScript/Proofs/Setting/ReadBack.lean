import StackScript.Proofs.Config.RoundTrip
import StackScript.Proofs.Numeral
import StackScript.Proofs.Setting.Frame
import StackScript.Proofs.Text.Cut

/-!
# Settings that were written are read

* `written_read`: a clean setting that was written is what the file holds for it afterwards, in
  every spelling of heading and key.
* `ChangesFound`: what a write changes is the contents of one file, the one that is read afterwards.
* `get_of_set`: integers are read as they were written, and so are texts, cut to the room that there
  is for them.
-/

namespace StackScript

open Text Numeral

/-- Names of one setting: the same file, heading and key up to case. -/
def Triplet.Alike (t t' : Triplet) : Prop :=
  t'.file = t.file ∧ equalFold t.heading t'.heading = true ∧ equalFold t.key t'.key = true

namespace Config

theorem isValue_decimalText (n : Int) : IsValue (decimalText n) := by
  have hc : ∀ c ∈ (decimalText n).toList, 45 ≤ c.toNat ∧ c.toNat ≤ 57 := fun c h => by
    rw [decimalText, String.toList_ofList] at h
    exact toNat_of_mem_decimal h
  have hb : ∀ c ∈ (decimalText n).toList, isBlank c = false := fun c h => by
    have := hc c h
    simp only [isBlank, blankRanges, List.any_cons, List.any_nil, Bool.or_false,
      Bool.or_eq_false_iff, Bool.and_eq_false_iff, decide_eq_false_iff_not]
    omega
  refine ⟨trim_eq_self_iff.mpr ⟨fun c h => ?_, fun c h => ?_⟩, fun h => ?_, fun h => ?_⟩
  · exact hb c (List.mem_of_mem_head? h)
  · exact hb c (List.mem_of_mem_getLast? h)
  · exact absurd (hc _ h) (by decide)
  · exact absurd (hc _ h) (by decide)

end Config

namespace SettingStore

variable {s : SettingStore} {d d' : Disk} {name value file : String} {t : Triplet}

theorem isClean_getD_locate (s : SettingStore) (d : Disk) (file : String) :
    ((s.locate d file).2.getD {}).IsClean ∧ ((s.locate d file).2.getD {}).IsDistinct := by
  cases h : (s.locate d file).2 with
  | none => exact ⟨Config.isClean_empty, Config.isDistinct_empty⟩
  | some c =>
    obtain ⟨text, rfl⟩ := exists_parse_of_locate h
    exact ⟨Config.isClean_parse text, Config.isDistinct_parse text⟩

/-- What is written with a clean setting comes back as it was. -/
theorem parse_render_written (s : SettingStore) (d : Disk) (hh : Config.IsHeading t.heading)
    (hk : Config.IsKey t.key) (hv : Config.IsValue value) :
    Config.parse (s.written d t value).render = s.written d t value := by
  obtain ⟨hc, hd⟩ := isClean_getD_locate s d t.file
  exact Config.parse_render (hc.set hh hk hv) (hd.set _ _ _)

/-- The disks differ in the contents of one file at the most, and in the later one a file name finds
settings in that file. -/
def ChangesFound (s : SettingStore) (d d' : Disk) (file : String) : Prop :=
  d'.directories = d.directories ∧ ∃ path c l, s.locate d' file = (path, some c) ∧
    d'.IsFileAt path l ∧ ∀ l', l' ≠ l → d'.contents? l' = d.contents? l'

theorem changesFound_setText (ht : Triplet.parse name = .ok t)
    (h : s.setText d name value = .ok d') : s.ChangesFound d d' t.file := by
  obtain ⟨l, hl, -, -, rfl⟩ := (setText_eq_ok_iff ht).mp h
  obtain ⟨path, hp, hf⟩ := locate_put (s.written d t value).render hl
  refine ⟨rfl, path, _, l, hf, Disk.isFileAt_put_iff.mpr hp, fun l' hne => ?_⟩
  exact Disk.contents?_put_of_ne d _ (Ne.symm hne)

/-- A clean setting that was written is found with its value, in every spelling. -/
theorem written_read (ht : Triplet.parse name = .ok t) (hh : Config.IsHeading t.heading)
    (hk : Config.IsKey t.key) (hv : Config.IsValue value) (h : s.setText d name value = .ok d')
    {t' : Triplet} (ha : t.Alike t') :
    ∃ c, s.load d' t'.file = .ok c ∧ c.get? t'.heading t'.key = some value := by
  obtain ⟨hf, hh', hk'⟩ := ha
  refine ⟨s.written d t value, ?_, Config.get?_set_self _ _ hh' hk'⟩
  rw [hf, load_setText ht h, parse_render_written s d hh hk hv]

theorem getInt_eq {t' : Triplet} {name' : String} {c : Config} {n : Int32}
    (ht' : Triplet.parse name' = .ok t') (hl : s.load d' t'.file = .ok c)
    (hg : c.get? t'.heading t'.key = some (decimalText n.toInt)) :
    s.getInt d' name' = .ok n := by
  have hcut : truncate (decimalText n.toInt) maxIntText = decimalText n.toInt := by
    have hs := size_decimalText_le n
    exact truncate_of_le (by rw [maxIntText]; omega)
  simp only [getInt, ht', bind, Except.bind, hl, hg, hcut, leadingInt_decimalText_toInt]
  rfl

theorem getText_eq {t' : Triplet} {name' : String} {c : Config} (size : Nat)
    (ht' : Triplet.parse name' = .ok t') (hl : s.load d' t'.file = .ok c)
    (hg : c.get? t'.heading t'.key = some value) :
    s.getText d' name' size = .ok (truncate value (size - 1)) := by
  simp only [getText, ht', bind, Except.bind, load_eq_ok_iff.mp hl, Option.bind, hg,
    Option.getD_some]
  rfl

/-- What was written under a clean heading and key is read, in every spelling of the two and wherever
the file was found or begun: an integer as it was, and a clean text up to as many bytes as there is
room for. One file has changed at the most, the one that is read. -/
theorem get_of_set (ht : Triplet.parse name = .ok t) (hh : Config.IsHeading t.heading)
    (hk : Config.IsKey t.key) :
    (∀ n d', s.setInt d name n = .ok d' → s.ChangesFound d d' t.file ∧
      ∀ name' t', Triplet.parse name' = .ok t' → t.Alike t' → s.getInt d' name' = .ok n) ∧
      ∀ value d', Config.IsValue value → s.setText d name value = .ok d' →
        s.ChangesFound d d' t.file ∧
          ∀ name' t' size, Triplet.parse name' = .ok t' → t.Alike t' →
            ∃ kept, s.getText d' name' size = .ok kept ∧
              IsLongestPrefix (size - 1) value.toList kept.toList := by
  constructor
  · intro n d' h
    refine ⟨changesFound_setText ht h, fun name' t' ht' ha => ?_⟩
    obtain ⟨c, hl, hg⟩ := written_read ht hh hk (Config.isValue_decimalText _) h ha
    exact getInt_eq ht' hl hg
  · intro value d' hv h
    refine ⟨changesFound_setText ht h, fun name' t' size ht' ha => ?_⟩
    obtain ⟨c, hl, hg⟩ := written_read ht hh hk hv h ha
    refine ⟨_, getText_eq size ht' hl hg, ?_⟩
    rw [truncate, String.toList_ofList]
    exact isLongestPrefix_cut _ _

/-- The least integer is read from the file that was begun for it, although the first place in which
the file is looked for holds bytes that are no text. A text is cut before a character for which there
is no room. -/
theorem get_of_set_minValue :
    let s : SettingStore := ⟨some "m"⟩
    let d : Disk := { directories := [["m"]], files := [(["m", "a"], ⟨#[0xFF]⟩)] }
    (∃ d', s.setInt d "a|A|k" Int32.minValue = .ok d' ∧ s.ChangesFound d d' "a" ∧
      s.getInt d' "a|a|K" = .ok Int32.minValue) ∧
      ∃ d', s.setText d "a|A|k" "né" = .ok d' ∧ s.ChangesFound d d' "a" ∧
        ∃ kept, s.getText d' "a|a|K" 3 = .ok kept ∧
          IsLongestPrefix 2 "né".toList kept.toList := by
  intro s d
  have ht : Triplet.parse "a|A|k" = .ok ⟨"a", "A", "k"⟩ := by decide +kernel
  have hm : readConfig? d "m/a" = none := by
    have hl : d.IsFileAt "m/a" ["m", "a"] := ⟨by cbv, by decide, by cbv⟩
    exact (readConfig?_of_contents hl rfl).2 (by decide +kernel)
  have hp : (s.locate d "a").1 = "a" := by
    have hc : s.candidates "a" = ["m/a", "a"] := by cbv
    simp only [locate, hc, firstReadable, hm]
    split <;> rfl
  have hl : d.IsFileAt (s.locate d "a").1 ["a"] := by
    rw [hp]
    exact ⟨by cbv, by decide, by cbv⟩
  have h (value : String) : s.setText d "a|A|k" value = .ok (d.put ["a"] _) :=
    (setText_eq_ok_iff ht).mpr ⟨["a"], hl, by decide, rfl, rfl⟩
  have hh : Config.IsHeading "A" := ⟨by decide, by decide, by decide, by decide⟩
  have hk : Config.IsKey "k" := ⟨by decide, by decide, by decide, by decide, by decide, by decide⟩
  have hv : Config.IsValue "né" := ⟨by decide +kernel, by decide, by decide⟩
  have ht' : Triplet.parse "a|a|K" = .ok ⟨"a", "a", "K"⟩ := by decide +kernel
  have ha : Triplet.Alike ⟨"a", "A", "k"⟩ ⟨"a", "a", "K"⟩ := ⟨rfl, by cbv, by cbv⟩
  obtain ⟨hint, htext⟩ := get_of_set ht hh hk
  obtain ⟨hf, hg⟩ := hint Int32.minValue _ (h _)
  obtain ⟨hf', hg'⟩ := htext "né" _ hv (h _)
  exact ⟨⟨_, h _, hf, hg _ _ ht' ha⟩, _, h _, hf', hg' _ _ 3 ht' ha⟩

end SettingStore

end StackScript
