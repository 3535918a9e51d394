/-
Frames as text.

A frame is its bindings between braces, in their order. `describe` shows one frame and whether there is another
around it, `inspect` the whole chain. Frames are shown where the lists of their values are not nested too deeply.
-/
import FrameLisp.Datum.Nesting
import FrameLisp.Store.World

namespace FrameLisp

def Bindings.text (bs : Bindings) : String :=
  "\x7b" ++ ", ".intercalate (bs.map fun b => b.1 ++ ": " ++ b.2.inspect) ++ "\x7d"

namespace Store

def bindings (s : Store) (id : FrameId) : Bindings := ((s.frame? id).map (·.bindings)).getD []

/-- one frame -/
def describe (s : Store) (id : FrameId) : String :=
  (s.bindings id).text ++ if ((s.frame? id).bind (·.outer)).isSome then " -> ..." else ""

/-- a frame and the frames around it -/
def inspect (s : Store) (id : FrameId) : String :=
  "<Environment chain: " ++ " -> ".intercalate ((s.chain id).map fun f => (s.bindings f).text) ++ ">"

/-- whether the lists of all values of some frames are nested at most `limit` deep -/
def nestedWithin (limit : Nat) (s : Store) (ids : List FrameId) : Bool :=
  ids.all fun id => (s.bindings id).all fun b => b.2.nestedWithin limit

end Store

/-- so deep may the lists of the values be nested of a frame that is shown -/
def inspectionLimit : Nat := 1000

namespace Run

/-- the text of one frame -/
def describe (frame : FrameId) : Run String := fun w =>
  if w.store.nestedWithin inspectionLimit [frame] then (.ok (w.store.describe frame), w) else (.error .tooDeep, w)

/-- the text of a frame and the frames around it -/
def inspect (frame : FrameId) : Run String := fun w =>
  if w.store.nestedWithin inspectionLimit (w.store.chain frame) then (.ok (w.store.inspect frame), w)
  else (.error .tooDeep, w)

end Run

end FrameLisp
