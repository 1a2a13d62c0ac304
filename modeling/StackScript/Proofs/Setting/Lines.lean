import StackScript.Proofs.Config.Tidy
import StackScript.Proofs.Setting.Frame

/-!
# The lines of a file that a setting is written to

`setText_keeps_lines`: a write tidies a file first, and then keeps all of its other lines. To a file
that is not tidy there is a write that loses a line.
-/

namespace StackScript

open Text

namespace SettingStore

variable {s : SettingStore} {d d' : Disk} {name value : String}

/-- What a write leaves of a text. -/
theorem contents?_setText {t : Triplet} (ht : Triplet.parse name = .ok t)
    (h : s.setText d name value = .ok d') {l : Location}
    (hl : d.resolve (s.locate d t.file).1 = .ok l) {text : String}
    (hold : d.contents? l = some text.toUTF8) :
    d'.contents? l = some (Config.rewritten text t.heading t.key value).toUTF8 := by
  obtain ⟨l', hf, -, -, rfl⟩ := (setText_eq_ok_iff ht).mp h
  obtain rfl : l' = l := Except.ok.inj (hf.resolve.symm.trans hl)
  have hread := (readConfig?_of_contents hf hold).1 text rfl
  rw [← snd_locate] at hread
  rw [Disk.contents?_put_self, written, hread, Option.getD_some, Config.rewritten]

/-- A write tidies a file and keeps all lines of the tidy file but those that gave the setting its
value. What it leaves has no comments, and no blanks around names and values, so that just the files
that are tidy keep their lines in every write. -/
theorem setText_keeps_lines {t : Triplet} (ht : Triplet.parse name = .ok t)
    (hh : Config.IsHeading t.heading) (hk : Config.IsKey t.key) (hv : Config.IsValue value)
    (h : s.setText d name value = .ok d') {l : Location}
    (hl : d.resolve (s.locate d t.file).1 = .ok l) {text : String}
    (hold : d.contents? l = some text.toUTF8) :
    let new := Config.rewritten text t.heading t.key value
    d'.contents? l = some new.toUTF8 ∧
      Config.KeepsOthers t.heading t.key (Config.parse text).render new ∧
      (Config.IsTidy text → Config.KeepsOthers t.heading t.key text new) ∧
      (Config.IsTidy new ∧ ∀ line ∈ lines new.toList, Config.IsWritten line) ∧
      ((∀ heading key value, Config.IsHeading heading → Config.IsKey key → Config.IsValue value →
        Config.KeepsOthers heading key text (Config.rewritten text heading key value)) ↔
          Config.IsTidy text) := by
  refine ⟨contents?_setText ht h hl hold, ?_, fun htidy => ?_, ⟨?_, fun line hline => ?_⟩, ?_⟩
  · exact Config.keepsOthers_render_parse text hh hk hv
  · exact Config.keepsOthers_of_isTidy htidy hh hk hv
  · exact Config.isTidy_rewritten text hh hk hv
  · exact (Config.isTidy_rewritten text hh hk hv).isWritten hline
  · exact Config.forall_keepsOthers_iff

/-- A file with a comment loses it. -/
theorem setText_keeps_lines_comment :
    let text := "; c\n[A]\nx=1\n"
    let d : Disk := ({} : Disk).put ["a"] text.toUTF8
    ∃ d', setText {} d "a|A|x" "2" = .ok d' ∧ d'.contents? ["a"] = some "[A]\nx=2\n".toUTF8 ∧
      ¬ Config.KeepsOthers "A" "x" text "[A]\nx=2\n" ∧ ¬ Config.IsTidy text := by
  intro text d
  have ht : Triplet.parse "a|A|x" = .ok ⟨"a", "A", "x"⟩ := by decide +kernel
  have hl : d.IsFileAt (locate {} d "a").1 ["a"] := by
    rw [fst_locate_of_base_none rfl]
    exact ⟨by cbv, by decide, by cbv⟩
  have h : setText {} d "a|A|x" "2" = .ok (d.put ["a"] _) :=
    (setText_eq_ok_iff ht).mpr ⟨["a"], hl, by decide, rfl, rfl⟩
  have hold : d.contents? ["a"] = some text.toUTF8 := Disk.contents?_put_self _ _ _
  obtain ⟨hnew, -, hkeeps, -, -⟩ := setText_keeps_lines ht
    ⟨by decide, by decide, by decide, by decide⟩
    ⟨by decide, by decide, by decide, by decide, by decide, by decide⟩
    ⟨by decide, by decide, by decide⟩ h hl.resolve hold
  have hr : Config.rewritten text "A" "x" "2" = "[A]\nx=2\n" := by decide +kernel
  have hlost : ¬ Config.KeepsOthers "A" "x" text "[A]\nx=2\n" := by decide +kernel
  rw [hr] at hnew hkeeps
  exact ⟨_, h, hnew, hlost, fun htidy => hlost (hkeeps htidy)⟩

end SettingStore

end StackScript
