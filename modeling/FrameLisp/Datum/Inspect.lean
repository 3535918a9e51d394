/-
What messages, notes and frames show for a datum.

`inspect` keeps apart what printing does not: texts stand between quotes with escapes, atoms show their kind,
numbers always have a point, an exponent or a word. `describe` is the form for the subject of a message: there
an atom is written as in a program text and a text as it is.
-/
import FrameLisp.Datum.Display

namespace FrameLisp.Datum

mutual

/-- the text of a datum that tells what kind of thing it is -/
def inspect : Datum → String
  | .atom a => a.inspect
  | .list items => "[" ++ ", ".intercalate (inspectItems items) ++ "]"
  | .absent => "None"
  | .number x => Number.exactText x
  | .text s => Text.quoted s
  | .closure params _ _ => closureText params
  | .builtin b => "<builtin " ++ b.name ++ ">"

/-- the texts of the items of a list -/
def inspectItems : List Datum → List String
  | [] => []
  | d :: ds => inspect d :: inspectItems ds

end

/-- a datum as the subject of a message -/
def describe : Datum → String
  | .atom a => a.written
  | .text s => s
  | d => d.inspect

theorem inspectItems_eq_map (items : List Datum) : inspectItems items = items.map inspect := by
  induction items with
  | nil => rfl
  | cons d ds ih => rw [inspectItems, ih]; rfl

theorem inspect_list (items : List Datum) :
    (Datum.list items).inspect = "[" ++ ", ".intercalate (items.map inspect) ++ "]" := by
  rw [inspect, inspectItems_eq_map]

end FrameLisp.Datum
