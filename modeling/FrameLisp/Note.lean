/-
Notes: what a run does, for whoever follows it.

Reading, evaluating and loading leave notes about what they pass. A note never changes what a run does.
-/
import FrameLisp.Datum.Inspect
import FrameLisp.Files.Path
import FrameLisp.SpecialForm

namespace FrameLisp

/-- one thing worth telling about a run -/
inductive Note where
  /-- a closing parenthesis with no list open was passed over, at this place among the tokens -/
  | skipped (place : Nat)
  /-- a list was closed by the end of the text -/
  | unclosed
  /-- a text was read -/
  | parsed (forms : List Datum)
  /-- a special form is about to be evaluated, with these parts after its keyword -/
  | entered (form : SpecialForm) (parts : List Datum)
  /-- a file of the prelude is about to be read -/
  | loading (file : Path)
  /-- there is no prelude, for this reason -/
  | noPrelude (reason : String)

namespace Note

def text : Note → String
  | .skipped place => "Skipping unmatched ')' at token " ++ toString place
  | .unclosed => "Unterminated list closed at end of input"
  | .parsed forms => "Parsed " ++ toString forms.length ++ " expression(s): " ++ (Datum.list forms).inspect
  | .entered form parts => "Special form " ++ form.keyword ++ ": " ++ (Datum.list parts).inspect
  | .loading file => "Loading prelude file " ++ file.text
  | .noPrelude reason => "No prelude loaded: " ++ reason

end Note

end FrameLisp
