/-
Program texts: reading them, and evaluating their forms in a frame.

Reading a text leaves notes about the parentheses that did not match and about the forms that were found. Lists
and evaluations may be nested up to a limit; a text with deeper lists is refused before anything of it is
evaluated. Values are built one call after another and can be nested deeper than any text; such a value can be
bound and taken apart, but not shown.

The limits stand for the stack of the machine, and a stack is shared: an evaluation takes some of it, and so does
every list that is being read or shown, so that how much is left for one of them depends on what is under way.
`Limits` gives each of the three a limit of its own, and `Limits.standard` holds numbers for a stack of 1000 frames
that nothing else takes from. They are not exact at every place, so what is proved holds for any limits.
-/
import FrameLisp.Datum.Reading
import FrameLisp.Evaluation
import FrameLisp.Token.Nesting

namespace FrameLisp

/-- how deep things may be nested -/
structure Limits where
  /-- so many lists may be open at a time in a text -/
  reading : Nat
  /-- so many evaluations may be under way at a time -/
  evaluation : Nat
  /-- so deep may the lists of a datum be nested that is printed or named in the message of a builtin -/
  display : Nat
  deriving DecidableEq, Repr

/-- the limits of a stack of 1000 frames: a list that is read takes one of them, an evaluation takes two, and a list
that is shown takes four -/
def Limits.standard : Limits := ⟨1000, 500, 240⟩

/-- a datum evaluated within the limits -/
def Datum.value (limits : Limits) : Evaluator := Datum.evaluate limits.display limits.evaluation

/-- what a program prints for a datum, within the limit -/
def Datum.displayed (limits : Limits) (d : Datum) : Run String :=
  if d.nestedWithin limits.display then pure d.display else Effect.fail .tooDeep

namespace Effect

variable {ε : Type}

/-- makes a root frame that binds the builtins -/
def newRoot : Effect ε FrameId := newFrame Builtin.bindings none

end Effect

/-- a datum evaluated in a root frame of its own -/
def Datum.valueAlone (limits : Limits) (d : Datum) : Run Datum := do
  let root ← Effect.newRoot
  d.value limits root

namespace Program

/-- the notes about parentheses of a text that do not match -/
def mismatches (tokens : List String) : List Note :=
  (Token.strays 0 0 tokens).map .skipped ++ List.replicate (Token.depthAfter 0 tokens) .unclosed

/-- the forms of a text -/
def read (limits : Limits) (source : String) : Run (List Datum) := do
  let tokens := Token.scan source
  if Token.nestedWithin limits.reading tokens then
    let forms := Datum.readAll tokens
    Effect.noteAll (mismatches tokens)
    Effect.note (.parsed forms)
    pure forms
  else
    Effect.noteAll ((Token.strays 0 0 (Token.within limits.reading 0 tokens)).map .skipped)
    Effect.fail .tooDeep

/-- the values of the forms of a text, evaluated one after another in a frame -/
def run (limits : Limits) (frame : FrameId) (source : String) : Run (List Datum) := do
  let forms ← read limits source
  (Datum.value limits).each frame forms

/-- what a program prints for the values of the forms of a text -/
def runDisplayed (limits : Limits) (frame : FrameId) (source : String) : Run (List String) := do
  let values ← run limits frame source
  values.mapM (Datum.displayed limits)

/-- the value of each form of a text in a root frame of its own -/
def runApart (limits : Limits) (source : String) : Run (List Datum) := do
  let forms ← read limits source
  forms.mapM (Datum.valueAlone limits)

end Program

end FrameLisp
