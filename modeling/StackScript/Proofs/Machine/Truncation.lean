import StackScript.Proofs.Format.ReadBack
import StackScript.Proofs.Machine.CallOrder
import StackScript.Proofs.Setting.Frame
import StackScript.Proofs.Text.Boundary

/-!
# Where texts are cut

Texts for which there is not enough room are cut at a character when a setting is read and when a
text is printed with a precision.

* `SettingStore.getText_eq_truncate`: what is read of a stored text, and `getIniString_run` the
  opcode that puts it on the stack.
* `Format.format?_text`: what a template of one conversion prints of a text.
* `truncated_longest` is the statement for all texts and numbers of bytes.
-/

namespace StackScript

open Text Numeral

namespace SettingStore

/-- The text that is stored for a setting; empty where the file cannot be read or does not have the
setting. -/
def stored (s : SettingStore) (d : Disk) (t : Triplet) : String :=
  match s.load d t.file with
  | .ok c => (c.get? t.heading t.key).getD ""
  | .error _ => ""

variable {name : String} {t : Triplet}

/-- A setting with a name is always read, as far as there is room for its text. -/
theorem getText_eq_truncate (s : SettingStore) (d : Disk) (size : ℕ)
    (ht : Triplet.parse name = .ok t) :
    s.getText d name size = .ok (truncate (s.stored d t) (size - 1)) := by
  have hfound : ((s.locate d t.file).2.bind (·.get? t.heading t.key)).getD "" = s.stored d t := by
    unfold stored load
    rcases s.locate d t.file with ⟨path, _ | c⟩ <;> rfl
  simp only [getText, ht, bind, Except.bind, hfound]
  rfl

end SettingStore

namespace Machine

variable {m : Machine} {v : Value} {name : String} {t : Triplet} {stack : List Value}

/-- The opcode leaves what is read in the place of the name. -/
theorem getIniString_run (hv : m.textNamed? v = some name) (ht : Triplet.parse name = .ok t)
    (hr : stack.length < m.capacity) :
    let kept := truncate (m.settings.stored m.disk t) (iniStringSize - 1)
    step .getIniString (m.on (v :: stack)) =
      .ok () ((m.interned kept).1.on ((m.interned kept).2 :: stack)) := by
  intro kept
  have hread : (m.on stack).settings.getText (m.on stack).disk name iniStringSize = .ok kept :=
    m.settings.getText_eq_truncate m.disk iniStringSize ht
  show stepGetIniString (m.on (v :: stack)) = _
  rw [stepGetIniString, popText_run hv]
  simp only [Bind.bind, EStateM.bind, get, getThe, MonadStateOf.get, EStateM.get, hread]
  exact pushText_run kept hr

end Machine

namespace Format

variable {strings : Strings} {handle : UInt32} {text : String} {cs : List Char}

/-- A text is cut to the precision and filled to the width. -/
theorem conversionText_text {n : ℕ} (hn : (Spec.ofChars cs).precision = some n)
    (ht : strings handle = some text) :
    conversionText strings (.string handle) cs 's' =
      (Spec.ofChars cs).padText (cut n text.toList) := by
  have hletter : Conversion.forArgument? 's' (.string handle) = some .text := rfl
  rw [← getD_render?]
  simp only [render?, hletter, Option.map_some, Option.getD_some, Conversion.render, renderText, hn,
    textArgument, ht]

/-- A template that is one conversion of a text with a precision prints the filled text, for which
there is always room. -/
theorem format?_text {t : SpecText} {ds : List Char} (hvalid : t.IsValid)
    (hds : t.precision = some ds) (ht : strings handle = some text)
    (hsize : size ('%' :: (t.chars ++ ['s'])) ≤ maxTemplate) :
    format? strings (String.ofList ('%' :: (t.chars ++ ['s']))) [.string handle] =
      .ok (String.ofList ((Spec.ofChars t.chars).padText
        (cut (min (ofDigits 10 ds) Spec.maxField) text.toList))) := by
  have hspec := SpecText.ofChars_chars hvalid
  have hprecision : (Spec.ofChars t.chars).precision =
      some (min (ofDigits 10 ds) Spec.maxField) := by
    rw [hspec, hds, Option.map_some]
  have hwidth : (Spec.ofChars t.chars).width.getD 0 ≤ Spec.maxField := by
    rw [hspec]
    exact Spec.getD_widthOf_le t.width
  have hroom : size ((Spec.ofChars t.chars).padText
      (cut (min (ofDigits 10 ds) Spec.maxField) text.toList)) ≤ maxOutput := by
    have hkept := size_cut_le (min (ofDigits 10 ds) Spec.maxField) text.toList
    have hfield : Spec.maxField = maxOutput := rfl
    rw [Spec.padText, Spec.size_pad, size_nil]
    omega
  rw [format?_conversion strings _ (t.of_mem_chars hvalid) (by decide) (by decide) hsize]
  show Except.ok (String.ofList (cut maxOutput
    (conversionText strings (.string handle) t.chars 's'))) = _
  rw [conversionText_text hprecision ht, cut_eq_self hroom]

/-- Without a width nothing is filled. -/
theorem padText_of_width_eq_nil {t : SpecText} (hvalid : t.IsValid) (hw : t.width = [])
    (cs : List Char) : (Spec.ofChars t.chars).padText cs = cs := by
  have hwidth : (Spec.ofChars t.chars).width = none := by
    rw [SpecText.ofChars_chars hvalid, hw]
    rfl
  simp [Spec.padText, Spec.pad, hwidth]

end Format

open Machine Format

/-- Of every text, a cut keeps the longest beginning that has the bytes allowed, up to the last
place between characters among them. Going back byte by byte finds this place and never leaves the
text, and takes three steps at the most. Of two cuts the shorter one counts. So what is read of a
stored text is its longest beginning for which there is room. What a conversion with a precision
prints of a text is the longest beginning within the precision, before it is filled to a width; a
template of nothing else prints that, whatever number the digits of the precision write. -/
theorem truncated_longest (text : String) :
    (∀ n,
      IsLongestPrefix n text.toList (truncate text n).toList ∧
      IsGreatest {k | isBoundary (encode text.toList) k = true ∧ k ≤ n}
        (size (truncate text n).toList) ∧
      truncateBytes? text n = some (truncate text n) ∧
      (n ≤ size text.toList → n < size (truncate text n).toList + 4)) ∧
    (∀ a b, truncate (truncate text a) b = truncate text (min a b)) ∧
    (∀ (s : SettingStore) (d : Disk) (name : String) (t : Triplet) (size : ℕ),
      Triplet.parse name = .ok t → s.stored d t = text →
      ∃ kept : String, s.getText d name size = .ok kept ∧
        IsLongestPrefix (size - 1) text.toList kept.toList) ∧
    (∀ (m : Machine) (stack : List Value) (v : Value) (name : String) (t : Triplet),
      m.stopped = none → stack.length < m.capacity → m.textNamed? v = some name →
      Triplet.parse name = .ok t → m.settings.stored m.disk t = text →
      ∃ kept : String, IsLongestPrefix (iniStringSize - 1) text.toList kept.toList ∧
        execute Opcode.getIniString.code (m.on (v :: stack)) =
          .ok () ((m.interned kept).1.on ((m.interned kept).2 :: stack))) ∧
    (∀ (strings : Strings) (args : List Value) (taken : ℕ) (handle : UInt32) (cs : List Char)
        (n : ℕ), argumentOf args (taken + 1) = .string handle → strings handle = some text →
      (Spec.ofChars cs).precision = some n →
      ∃ kept : List Char, IsLongestPrefix n text.toList kept ∧
        (Piece.conversion cs 's').text strings args taken = (Spec.ofChars cs).padText kept) ∧
    ∀ (strings : Strings) (handle : UInt32) (t : SpecText) (ds : List Char),
      strings handle = some text → t.IsValid → t.precision = some ds →
      size ('%' :: (t.chars ++ ['s'])) ≤ maxTemplate →
      ∃ kept : List Char, IsLongestPrefix (min (ofDigits 10 ds) Spec.maxField) text.toList kept ∧
        format? strings (String.ofList ('%' :: (t.chars ++ ['s']))) [.string handle] =
          .ok (String.ofList ((Spec.ofChars t.chars).padText kept)) ∧
        (t.width = [] → (Spec.ofChars t.chars).padText kept = kept) := by
  refine ⟨fun n => ⟨isLongestPrefix_truncate text n, ?_, truncateBytes?_eq text n, fun hn => ?_⟩,
    truncate_truncate text, ?_, ?_, ?_, ?_⟩
  · rw [toList_truncate]
    exact isGreatest_size_cut n text.toList
  · rw [toList_truncate]
    exact lt_size_cut_add hn
  · rintro s d name t size ht rfl
    exact ⟨_, s.getText_eq_truncate d size ht, isLongestPrefix_truncate _ _⟩
  · rintro m stack v name t hs hr hv ht rfl
    exact ⟨_, isLongestPrefix_truncate _ _, execute_run hs (getIniString_run hv ht hr)⟩
  · intro strings args taken handle cs n harg ht hn
    refine ⟨_, isLongestPrefix_cut n text.toList, ?_⟩
    rw [Piece.text, harg, conversionText_text hn ht]
  · intro strings handle t ds ht hvalid hds hsize
    exact ⟨_, isLongestPrefix_cut _ text.toList, format?_text hvalid hds ht hsize,
      fun hw => padText_of_width_eq_nil hvalid hw _⟩

/-- A text with characters of one, two and four bytes: cut within the last one, read from a file
into two bytes and by the opcode, and printed with a precision. -/
theorem truncated_longest_mixed :
    let text := "né😀"
    let d := ({} : Disk).put ["a"] "[A]\nk=né😀\n".toUTF8
    let m : Machine := { capacity := 1, disk := d, strings := #["a|A|k"] }
    let t : SpecText := ⟨['#'], [], some ['5']⟩
    m.settings.stored d ⟨"a", "A", "k"⟩ = text ∧ t.IsValid ∧
      truncateBytes? text 6 = some "né" ∧ 6 < size (truncate text 6).toList + 4 ∧
      truncate (truncate text 6) 2 = truncate text 2 ∧
      m.settings.getText d "a|A|k" 3 = .ok "n" ∧
      execute 0x81EB (m.on [.string 0]) =
        .ok () ((m.interned text).1.on [(m.interned text).2]) ∧
      (Piece.conversion "3.1".toList 's').text (fun _ => some text) [.int 7, .string 0] 1 =
        "  n".toList ∧
      format? (fun _ => some text) "%#.5s" [.string 0] = .ok "né" := by
  intro text d m t
  have hname : Triplet.parse "a|A|k" = .ok ⟨"a", "A", "k"⟩ := by decide +kernel
  have hl : d.IsFileAt "a" ["a"] := ⟨by cbv, by decide, by cbv⟩
  have hc := (SettingStore.readConfig?_of_contents hl (Disk.contents?_put_self _ _ _)).1 _ rfl
  have hload : m.settings.load d "a" = .ok (Config.parse "[A]\nk=né😀\n") := by
    rw [SettingStore.load_eq_ok_iff, SettingStore.snd_locate,
      SettingStore.fst_locate_of_base_none rfl]
    exact hc
  have hstored : m.settings.stored d ⟨"a", "A", "k"⟩ = text := by
    simp only [SettingStore.stored, hload]
    decide +kernel
  have ht : t.IsValid :=
    { flags := by simp [t, flagChars]
      width := by simp [t]
      head? := by simp [t]
      precision := by
        rintro ds ⟨⟩
        exact List.all_eq_true.mp (by decide) }
  obtain ⟨hplaces, htwice, hread, hopcode, hpiece, hprint⟩ := truncated_longest text
  obtain ⟨-, -, hsix, hback⟩ := hplaces 6
  obtain ⟨kept, hkept, hlongest⟩ := hread m.settings d "a|A|k" _ 3 hname hstored
  obtain ⟨whole, hwhole, hrun⟩ :=
    hopcode m [] (.string 0) "a|A|k" _ rfl (by decide) rfl hname hstored
  obtain ⟨one, hone, hfilled⟩ :=
    hpiece (fun _ => some text) [.int 7, .string 0] 1 0 "3.1".toList 1 rfl rfl (by decide)
  obtain ⟨out, hout, hformat, hnarrow⟩ :=
    hprint (fun _ => some text) 0 t ['5'] rfl ht rfl (by decide)
  have hcut {n : ℕ} {kept : List Char} (h : IsLongestPrefix n text.toList kept) :
      kept = cut n text.toList := h.unique (isLongestPrefix_cut n text.toList)
  have hkept₁ : kept = "n" := String.toList_inj.mp ((hcut hlongest).trans (by decide))
  have hwhole₁ : whole = text := String.toList_inj.mp ((hcut hwhole).trans (by decide))
  have hone₁ : one = "n".toList := (hcut hone).trans (by decide)
  have hout₁ : out = "né".toList := (hcut hout).trans (by decide)
  rw [hone₁] at hfilled
  rw [hnarrow rfl, hout₁] at hformat
  rw [hkept₁] at hkept
  rw [hwhole₁] at hrun
  exact ⟨hstored, ht, hsix.trans (by decide), hback (by decide), htwice 6 2, hkept, hrun,
    hfilled.trans (by decide), hformat⟩

end StackScript
