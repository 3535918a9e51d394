/-
What a program prints for a datum.

A text is printed as it is, and between quotation marks inside a list; a list is its items between parentheses,
one space apart; a number is printed in the style of `Number.displayText`; a closure shows its parameters and a
builtin its name.
-/
import FrameLisp.Datum

namespace FrameLisp.Datum

/-- a closure shows its parameters and nothing of its body -/
def closureText (params : List String) : String := "<lambda (" ++ " ".intercalate params ++ ")>"

mutual

/-- the text of a datum; `nested` says whether it stands inside a list -/
def displayAt (nested : Bool) : Datum → String
  | .atom a => a.written
  | .list items => "(" ++ " ".intercalate (displayItems items) ++ ")"
  | .absent => "undefined"
  | .number x => Number.displayText x
  | .text s => if nested then "\"" ++ s ++ "\"" else s
  | .closure params _ _ => closureText params
  | .builtin b => "<builtin " ++ b.name ++ ">"

/-- the texts of the items of a list -/
def displayItems : List Datum → List String
  | [] => []
  | d :: ds => displayAt true d :: displayItems ds

end

/-- what a program prints for a datum -/
def display (d : Datum) : String := displayAt false d

theorem displayItems_eq_map (items : List Datum) : displayItems items = items.map (displayAt true) := by
  induction items with
  | nil => rfl
  | cons d ds ih => rw [displayItems, ih]; rfl

@[simp] theorem display_text (s : String) : (Datum.text s).display = s := by
  simp [display, displayAt]

theorem display_list (items : List Datum) :
    (Datum.list items).display = "(" ++ " ".intercalate (items.map (displayAt true)) ++ ")" := by
  rw [display, displayAt, displayItems_eq_map]

end FrameLisp.Datum
