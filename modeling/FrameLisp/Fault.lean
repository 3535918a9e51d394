/-
What can go wrong in an evaluation.

A fault is a cause. Its kind says which of the rules of the language was broken, and its message is what a user
reads.

A message may show a datum. Where a builtin is the one that shows it, this is a value, which calls can nest deeper than
any text, and a limit is asked first (`Builtin.call`): a value beyond it is a fault of depth instead. The parts of a
malformed form are code. How deep code is nested was limited when it was read, and each of its lists takes no more of
the stack when it is shown than when it was read, so their messages are made without asking again. Only code that is
read at the very limit can be too deep to be shown from inside an evaluation, and the fault would be one of depth then,
at the same place.
-/
import FrameLisp.Datum.Inspect

namespace FrameLisp

/-- a cause for which an evaluation stops -/
inductive Fault where
  /-- no frame of the chain binds the name -/
  | unbound (name : String)
  | defineArity
  | notDefinable (target : Datum)
  | conditionalArity
  | blockShape
  | malformedBinding (binding : Datum)
  | functionShape
  | badParameter (param : Datum)
  /-- `first` or `rest` of something that is no sequence -/
  | notSequence (operation : Builtin) (got : Datum)
  | badOperands (operation : Builtin) (a b : Datum)
  | notFunction (head : Datum)
  /-- lists or evaluations are nested too deeply -/
  | tooDeep

/-- the rule of the language that a fault breaks -/
inductive Fault.Kind where
  | scope
  | form
  | operand
  | depth
  deriving DecidableEq, Repr

namespace Fault

def kind : Fault → Kind
  | .unbound _ => .scope
  | .defineArity => .form
  | .notDefinable _ => .form
  | .conditionalArity => .form
  | .blockShape => .form
  | .malformedBinding _ => .form
  | .functionShape => .form
  | .badParameter _ => .form
  | .notSequence .. => .operand
  | .badOperands .. => .operand
  | .notFunction _ => .operand
  | .tooDeep => .depth

def message : Fault → String
  | .unbound name => "Cannot lookup unbound identifier " ++ name
  | .defineArity => "define requires exactly 2 arguments"
  | .notDefinable target => "Cannot define " ++ target.describe ++ ": not an identifier"
  | .conditionalArity => "if requires a condition and a then-expression"
  | .blockShape => "let requires a binding list and a body"
  | .malformedBinding binding => "Malformed let binding: " ++ binding.describe
  | .functionShape => "lambda requires a parameter list"
  | .badParameter param => "lambda parameter " ++ param.describe ++ " is not an identifier"
  | .notSequence operation got => operation.name ++ " expects a list, got " ++ got.display
  | .badOperands operation a b =>
    "Invalid operands to " ++ operation.name ++ ": " ++ a.display ++ ", " ++ b.display
  | .notFunction head => "Cannot apply non-function " ++ head.describe
  | .tooDeep => "maximum recursion depth exceeded"

end Fault

end FrameLisp
