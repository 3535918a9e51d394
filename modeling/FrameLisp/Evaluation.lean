/-
Evaluation of data in a frame.

An identifier evaluates to its value in the nearest frame that binds it, another atom to its number or text, and
the empty list to itself. A list that starts with the keyword of a special form goes by the rule of that form.
In any other list all items are evaluated, from left to right and once; if the first value is a function it is
called with the others, else the values are the list that results. A datum that is neither atom nor list is its
own value.

Evaluation goes through closures, so nothing about the datum bounds it. `evaluate room n` therefore evaluates at
most `n` levels deep and stops with `Fault.tooDeep` where it would have to go deeper; `room` limits how deep the
lists of the data are nested that builtins show. One level, `evaluateWith`, is given the evaluation of its parts.
-/
import FrameLisp.Builtin.Call

namespace FrameLisp

/-- a way to evaluate a datum in a frame -/
abbrev Evaluator := Datum → FrameId → Run Datum

namespace Evaluator

/-- the values of data, from left to right -/
def each (ev : Evaluator) (frame : FrameId) : List Datum → Run (List Datum)
  | [] => pure []
  | d :: ds => do
    let value ← ev d frame
    let values ← each ev frame ds
    pure (value :: values)

/-- data one after another: those in front first -/
theorem each_append (ev : Evaluator) (frame : FrameId) (front back : List Datum) :
    ev.each frame (front ++ back) = (do
      let values ← ev.each frame front
      let others ← ev.each frame back
      pure (values ++ others)) := by
  induction front with
  | nil => simp [each]
  | cons d ds ih => simp [each, ih]

/-- the value of the last form, or `last` when there is no form; the others are evaluated for what they do -/
def sequence (ev : Evaluator) (frame : FrameId) (last : Datum) : List Datum → Run Datum
  | [] => pure last
  | d :: ds => do
    let value ← ev d frame
    sequence ev frame value ds

/-! ## Calls -/

/-- calls a closure: its parameters are bound in a new frame inside the one that it was made in, and its body is
evaluated there -/
def callClosure (ev : Evaluator) (params : List String) (body : List Datum) (captured : FrameId) (args : List Datum) :
    Run Datum := do
  let frame ← Effect.newFrame (Bindings.ofPairs (Bindings.ofParams params args)) (some captured)
  ev.sequence frame .absent body

/-- calls a function with values; nothing else can be called -/
def call (room : Nat) (ev : Evaluator) (head : Datum) (args : List Datum) : Run Datum :=
  match head with
  | .closure params body captured => ev.callClosure params body captured args
  | .builtin b => b.call room args
  | _ => Effect.fail (.notFunction head)

/-! ## Special forms -/

/-- `(define name value)` binds the name in the frame at hand -/
def define (ev : Evaluator) (frame : FrameId) : List Datum → Run Datum
  | [target, body] =>
    match target.identifier? with
    | none => Effect.fail (.notDefinable target)
    | some name => do
      let value ← ev body frame
      Effect.define frame name value
      pure value
  | _ => Effect.fail .defineArity

/-- `(if condition consequent alternative)` evaluates one of its two branches; without an alternative its value
may be absent -/
def conditional (ev : Evaluator) (frame : FrameId) : List Datum → Run Datum
  | condition :: consequent :: others => do
    let value ← ev condition frame
    if value.holds then ev consequent frame
    else match others with
      | [] => pure .absent
      | alternative :: _ => ev alternative frame
  | _ => Effect.fail .conditionalArity

/-- a name and the datum whose value it is bound to -/
def binding? : Datum → Option (String × Datum)
  | .list [.atom (.identifier name), body] => some (name, body)
  | _ => none

/-- binds one name after another in a frame, each value evaluated in that frame as it is by then -/
def fill (ev : Evaluator) (frame : FrameId) : List Datum → Run Unit
  | [] => pure ()
  | b :: bs =>
    match binding? b with
    | none => Effect.fail (.malformedBinding b)
    | some (name, body) => do
      let value ← ev body frame
      Effect.define frame name value
      fill ev frame bs

/-- `(let ((name value) ...) body)` binds its names in a new frame and evaluates the body there -/
def block (ev : Evaluator) (frame : FrameId) : List Datum → Run Datum
  | [.list bindings, body] => do
    let inner ← Effect.newFrame [] (some frame)
    ev.fill inner bindings
    ev body inner
  | _ => Effect.fail .blockShape

/-- the names of parameters, all of which have to be identifiers -/
def paramNames : List Datum → Except Fault (List String)
  | [] => .ok []
  | p :: ps =>
    match p.identifier? with
    | none => .error (.badParameter p)
    | some name => (paramNames ps).map (name :: ·)

/-- `(lambda (name ...) form ...)` is a closure that remembers the frame at hand -/
def function (frame : FrameId) : List Datum → Run Datum
  | .list params :: body =>
    match paramNames params with
    | .error fault => Effect.fail fault
    | .ok names => pure (.closure names body frame)
  | _ => Effect.fail .functionShape

/-- the special form with these parts after its keyword -/
def form (ev : Evaluator) (frame : FrameId) : SpecialForm → List Datum → Run Datum
  | .define => ev.define frame
  | .conditional => ev.conditional frame
  | .block => ev.block frame
  | .function => function frame

end Evaluator

namespace Datum

/-- the special form whose keyword this is -/
def specialForm? (head : Datum) : Option SpecialForm := head.identifier?.bind SpecialForm.ofKeyword?

/-- one level of evaluation, where `ev` evaluates the parts -/
def evaluateWith (room : Nat) (ev : Evaluator) (d : Datum) (frame : FrameId) : Run Datum :=
  match d with
  | .atom (.identifier name) => Run.lookup frame name
  | .atom (.number x) => pure (.number x)
  | .atom (.string s) => pure (.text s)
  | .list [] => pure (.list [])
  | .list (head :: parts) =>
    match head.specialForm? with
    | some form => do
      Effect.note (.entered form parts)
      ev.form frame form parts
    | none => do
      let function ← ev head frame
      let args ← ev.each frame parts
      if function.isFunction then ev.call room function args
      else pure (.list (function :: args))
  | d => pure d

/-- the value of a datum in a frame, found at most `depth` levels deep -/
def evaluate (room : Nat) : Nat → Evaluator
  | 0 => fun _ _ => Effect.fail .tooDeep
  | depth + 1 => evaluateWith room (evaluate room depth)

@[simp] theorem evaluate_zero (room : Nat) (d : Datum) (frame : FrameId) :
    evaluate room 0 d frame = Effect.fail .tooDeep := rfl

theorem evaluate_succ (room depth : Nat) (d : Datum) (frame : FrameId) :
    evaluate room (depth + 1) d frame = evaluateWith room (evaluate room depth) d frame := rfl

/-- a list that starts with a keyword goes by the rule of its form -/
theorem evaluateWith_form {head : Datum} {form : SpecialForm} (h : head.specialForm? = some form) (room : Nat)
    (ev : Evaluator) (parts : List Datum) (frame : FrameId) :
    evaluateWith room ev (.list (head :: parts)) frame = (do
      Effect.note (.entered form parts)
      ev.form frame form parts) := by
  simp [evaluateWith, h]

/-- any other list is a call or, when its first value is no function, the list of its values -/
theorem evaluateWith_items {head : Datum} (h : head.specialForm? = none) (room : Nat) (ev : Evaluator)
    (parts : List Datum) (frame : FrameId) :
    evaluateWith room ev (.list (head :: parts)) frame = (do
      let function ← ev head frame
      let args ← ev.each frame parts
      if function.isFunction then ev.call room function args
      else pure (.list (function :: args))) := by
  simp [evaluateWith, h]

/-- a keyword is an identifier, so nothing else starts a special form -/
theorem specialForm?_eq_some_iff {head : Datum} {form : SpecialForm} :
    head.specialForm? = some form ↔ head = .atom (.identifier form.keyword) := by
  simp only [specialForm?, Option.bind_eq_some_iff, identifier?_eq_some_iff, SpecialForm.ofKeyword?_eq_some_iff]
  constructor
  · rintro ⟨name, rfl, rfl⟩
    rfl
  · rintro rfl
    exact ⟨_, rfl, rfl⟩

end Datum

end FrameLisp
