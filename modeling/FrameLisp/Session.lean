/-
Sessions.

A session is a root frame of its own that starts with the builtins and the prelude. Programs that are run in it
see what the earlier ones defined.
-/
import FrameLisp.Prelude
import FrameLisp.Store.Inspect

namespace FrameLisp.Session

/-- what a session evaluates first -/
inductive Beginning where
  | nothing
  /-- the prelude of the surroundings, if it is there -/
  | prelude
  | program (source : String)
  deriving DecidableEq, Repr

/-- a beginning as a user writes it: nothing, the word `auto` for the prelude, or a program text -/
def Beginning.ofText? : Option String → Beginning
  | none => .nothing
  | some source => if source = "auto" then .prelude else if source.isEmpty then .nothing else .program source

/-- starts a session and gives its frame -/
def start (s : Surroundings) (beginning : Beginning) : Load FrameId := do
  let root ← Effect.newRoot
  match beginning with
  | .nothing => pure ()
  | .prelude => Prelude.loadIfPresent s root
  | .program source => Prelude.evaluate s.limits root source
  pure root

/-- what a session's frame binds, without the builtins that still have their own name -/
def definitions (w : World) (root : FrameId) : Bindings :=
  (w.store.bindings root).filter fun b =>
    match b.2 with
    | .builtin f => f.name != b.1
    | _ => true

end FrameLisp.Session
