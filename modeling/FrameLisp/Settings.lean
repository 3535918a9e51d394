/-
Settings: what a user can choose from outside.

There are three, each a text that may be missing: the prompt, the directories of the prelude and the level of
notes. Directories stand between colons, blanks around them do not count, and blank ones are left out; without a
text the default applies, but a text that names no directory names none. A level is one of eight names, in large
or small letters.
-/
import FrameLisp.Files.Path
import FrameLisp.Text.Blank

namespace FrameLisp

/-- the texts that a user may have set -/
structure Settings where
  prompt : Option String
  preludePath : Option String
  noteLevel : Option String
  deriving DecidableEq, Repr

namespace Settings

/-- nothing is set -/
def unset : Settings := ⟨none, none, none⟩

def promptText (s : Settings) : String := s.prompt.getD "Enter a Lisp program: "

/-! ## Directories -/

/-- the paths between the colons of a text -/
def pathsOf (text : String) : List Path :=
  let entries := (text.toList.splitOn ':').map Text.strip
  (entries.filter (!·.isEmpty)).map fun cs => Path.ofText (String.ofList cs)

/-- the paths that a setting names; the defaults when it is missing or empty -/
def pathsOr (defaults : List Path) : Option String → List Path
  | none => defaults
  | some text => if text.isEmpty then defaults else pathsOf text

/-! ## The level of notes -/

/-- the names of levels -/
def levels : List (String × Nat) :=
  [("CRITICAL", 50), ("FATAL", 50), ("ERROR", 40), ("WARNING", 30), ("WARN", 30), ("INFO", 20), ("DEBUG", 10),
    ("NOTSET", 0)]

/-- a letter as the names of levels have it; the dotless i and the long s are small forms of plain letters too -/
def capital (c : Char) : Char :=
  if c = 'ı' then 'I' else if c = 'ſ' then 'S' else c.toUpper

/-- the level when nothing else is asked for -/
def defaultLevel : Nat := 30

/-- the level that is set -/
def level (s : Settings) : Nat :=
  let name := String.ofList (((s.noteLevel.getD "").toList).map capital)
  (levels.lookup name).getD defaultLevel

/-- whether notes are shown -/
def showsNotes (s : Settings) : Bool := s.level ≤ 10

end Settings

end FrameLisp
