/-
The shell: one program text from the command line, from start to end.

The text is the arguments with spaces between them, or else the first line of the input, which a prompt asks
for. It is evaluated in a new session, and the value of each form is printed after whatever the form itself
prints. A fault of the program ends the run with an error line and the status 1. A fault of the prelude is not
the shell's to report: the run escapes with it.
-/
import FrameLisp.Session

namespace FrameLisp.Shell

/-- how a run ends -/
inductive Ending where
  | done
  | failed (fault : Fault)
  | escaped (fault : LoadFault)

/-- what a run leaves -/
structure Report where
  output : String
  notes : List Note
  ending : Ending

namespace Report

/-- the exit status, unless the run escapes -/
def status? (r : Report) : Option Nat :=
  match r.ending with
  | .done => some 0
  | .failed _ => some 1
  | .escaped _ => none

/-- the lines of notes, if they are shown -/
def noteLines (settings : Settings) (r : Report) : List String :=
  if settings.showsNotes then r.notes.map Note.text else []

/-- the line that reports a fault of the program -/
def faultLines (r : Report) : List String :=
  match r.ending with
  | .failed fault => ["Error: " ++ fault.message]
  | _ => []

/-- the text for the error output -/
def errorOutput (settings : Settings) (r : Report) : String :=
  String.join ((r.noteLines settings ++ r.faultLines).map (· ++ "\n"))

end Report

/-- the first line of an input, without its end; none when there is no input -/
def firstLine? (input : String) : Option String :=
  if input.isEmpty then none else some (String.ofList (input.toList.takeWhile (· != '\n')))

/-- prints the value of each form -/
def printEach (limits : Limits) (frame : FrameId) : List Datum → Run Unit
  | [] => pure ()
  | d :: ds => do
    let value ← d.value limits frame
    let text ← value.displayed limits
    Effect.print ("Result: " ++ text ++ "\n")
    printEach limits frame ds

/-- runs a program text in a frame and prints the values of its forms -/
def printProgram (limits : Limits) (frame : FrameId) (source : String) : Run Unit := do
  let forms ← Program.read limits source
  printEach limits frame forms

/-- runs a program text in a new session, after `prompt` was printed -/
def runProgram (s : Surroundings) (prompt source : String) : Report :=
  match Session.start s .prelude (World.empty.print prompt) with
  | (.error fault, w) => ⟨w.printed, w.notes.toList, .escaped fault⟩
  | (.ok root, w) =>
    match printProgram s.limits root source w with
    | (.error fault, w) => ⟨w.printed, w.notes.toList, .failed fault⟩
    | (.ok (), w) => ⟨w.printed, w.notes.toList, .done⟩

/-- runs the program text of the arguments or, without arguments, of the input -/
def run (s : Surroundings) (args : List String) (input : String) : Report :=
  if args.isEmpty then
    let prompt := s.settings.promptText
    match firstLine? input with
    | none => ⟨prompt, [], .done⟩
    | some source => runProgram s prompt source
  else runProgram s "" (" ".intercalate args)

end FrameLisp.Shell
