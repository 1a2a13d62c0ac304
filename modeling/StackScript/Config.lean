import StackScript.NameMap
import StackScript.Text.Blank
import StackScript.Text.Line
import StackScript.Text.Split

/-!
# Settings files

A settings file holds sections of settings: a line `[name]` begins a section, a line `key=value` is
a setting of the section begun last, and a semicolon begins a comment.

* `Config.parse` reads a text and refuses none: a line that is neither is passed over.
* `Config.render` writes one line per section and setting, with a blank line between sections.
-/

namespace StackScript

open Text

/-- The settings of a file, by section and key. -/
structure Config where
  sections : NameMap (NameMap String) := {}
  deriving DecidableEq, Repr

namespace Config

/-- The value of a setting. -/
def get? (c : Config) (heading key : String) : Option String :=
  (c.sections.get? heading).bind (·.get? key)

/-- A section that need not have settings. -/
def touch (c : Config) (heading : String) : Config :=
  ⟨c.sections.update heading (·.getD {})⟩

/-- Gives a setting a value. -/
def set (c : Config) (heading key value : String) : Config :=
  ⟨c.sections.update heading fun settings => (settings.getD {}).insert key value⟩

/-- The headings as spelled, in order. -/
def headings (c : Config) : List String := c.sections.keys

/-- A setting that was set has its value, in every spelling of heading and key. -/
theorem get?_set_self (c : Config) {heading heading' key key' : String} (value : String)
    (h : equalFold heading heading' = true) (k : equalFold key key' = true) :
    (c.set heading key value).get? heading' key' = some value := by
  simp only [get?, set]
  rw [NameMap.get?_update_self _ _ h]
  exact NameMap.get?_update_self _ _ k

/-- Settings under another heading or another key keep their values. -/
theorem get?_set_of_ne (c : Config) {heading heading' key key' : String} (value : String)
    (h : (equalFold heading heading' && equalFold key key') = false) :
    (c.set heading key value).get? heading' key' = c.get? heading' key' := by
  simp only [get?, set]
  by_cases hh : equalFold heading heading' = true
  · rw [hh, Bool.true_and] at h
    rw [NameMap.get?_update_self _ _ hh, Option.bind_some, NameMap.insert,
      NameMap.get?_update_of_ne _ _ h]
    have e : c.sections.get? heading = c.sections.get? heading' := by
      unfold NameMap.get? NameMap.find?
      congr 2
      funext e
      simp only [equalFold]
      rw [equalFold_iff.mp hh]
    rw [e]
    cases c.sections.get? heading' <;> rfl
  · rw [NameMap.get?_update_of_ne _ _ (by simpa using hh)]

/-! ## Reading -/

/-- What a line says. -/
inductive Line where
  | heading (name : String)
  | setting (key value : String)
  /-- A blank line, a comment, or a line with neither form. -/
  | other
  deriving DecidableEq, Repr

/-- The meaning of what is left of a line without its comment and the blanks around it. -/
def Line.ofTrimmed (cs : List Char) : Line :=
  match cs with
  | '[' :: rest =>
    match splitOnce? ']' rest with
    | some (name, _) => .heading (String.ofList (trim name))
    | none => .other
  | cs =>
    match splitOnce? '=' cs with
    | some (key, value) =>
      if trim key = [] then .other
      else .setting (String.ofList (trim key)) (String.ofList (trim value))
    | none => .other

/-- The meaning of a line. -/
def Line.ofChars (cs : List Char) : Line := .ofTrimmed (trim (before ';' cs))

/-- The heading of settings before the first one. -/
def firstHeading : String := "unknown"

/-- A file read up to some line: the section begun last, and all settings. -/
structure Reading where
  current : String := firstHeading
  config : Config := {}

/-- Reads one more line. -/
def Reading.add (r : Reading) : Line → Reading
  | .heading name => ⟨name, r.config.touch name⟩
  | .setting key value => { r with config := r.config.set r.current key value }
  | .other => r

/-- The settings that a text holds. A section or key that comes again adds to the first. -/
def parse (text : String) : Config :=
  ((lines text.toList).foldl (fun (r : Reading) l => r.add (.ofChars l)) {}).config

/-! ## Writing -/

/-- The line of a setting. -/
def settingLine (key value : String) : List Char := key.toList ++ '=' :: value.toList ++ ['\n']

/-- The line of a heading. -/
def headingLine (name : String) : List Char := '[' :: name.toList ++ [']', '\n']

/-- The lines of a section. -/
def sectionText (name : String) (settings : NameMap String) : List Char :=
  headingLine name ++ settings.entries.flatMap fun e => settingLine e.1 e.2

/-- The text of the settings, a blank line between sections. -/
def render (c : Config) : String :=
  String.ofList (List.intercalate ['\n'] (c.sections.entries.map fun e => sectionText e.1 e.2))

end Config

end StackScript
