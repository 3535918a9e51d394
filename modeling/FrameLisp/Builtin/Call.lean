/-
What the builtin functions do.

A call takes a list of values. A missing operand is the absent value, and operands that are not needed are left
out. `first` and `rest` take lists and texts apart, `+` adds numbers and joins texts or lists, the other signs
are for numbers only, and `print` prints a line and gives its operand back. No builtin changes a frame
(`call_store`), and only `print` prints (`call_printed`).

Printing a datum and naming it in a message go down its lists, so a call has a limit for the data that it shows:
where their lists are nested deeper it does nothing but stop with `Fault.tooDeep`.
-/
import FrameLisp.Datum.Nesting
import FrameLisp.Store.World

namespace FrameLisp.Builtin

/-- the operand at a place, absent when there are not so many -/
def operand (args : List Datum) (place : Nat) : Datum := args.getD place .absent

/-- the first item of a list or character of a text, absent when there is none -/
def firstOf? : Datum → Option Datum
  | .list items => some (items.headD .absent)
  | .text s => some (match s.toList with
    | [] => .absent
    | c :: _ => .text (String.ofList [c]))
  | _ => none

/-- a list or text without its first item or character -/
def restOf? : Datum → Option Datum
  | .list items => some (.list items.tail)
  | .text s => some (.text (String.ofList s.toList.tail))
  | _ => none

/-- the sum of two numbers, or two texts or two lists one after the other -/
def sum? : Datum → Datum → Option Datum
  | .number x, .number y => some (.number (x + y))
  | .text s, .text t => some (.text (s ++ t))
  | .list xs, .list ys => some (.list (xs ++ ys))
  | _, _ => none

/-- an operation on two numbers -/
def numeric? (op : Float → Float → Float) : Datum → Datum → Option Datum
  | .number x, .number y => some (.number (op x y))
  | _, _ => none

/-- the result of a call, or its fault -/
def result (b : Builtin) (args : List Datum) : Except Fault Datum :=
  let x := operand args 0
  let y := operand args 1
  let sequence (r : Option Datum) : Except Fault Datum := r.elim (.error (.notSequence b x)) .ok
  let arithmetic (r : Option Datum) : Except Fault Datum := r.elim (.error (.badOperands b x y)) .ok
  match b with
  | .first => sequence (firstOf? x)
  | .rest => sequence (restOf? x)
  | .print => .ok x
  | .add => arithmetic (sum? x y)
  | .subtract => arithmetic (numeric? (· - ·) x y)
  | .multiply => arithmetic (numeric? (· * ·) x y)
  | .divide => arithmetic (numeric? Number.divide x y)

/-- the text that a call prints -/
def output (b : Builtin) (args : List Datum) : String :=
  match b with
  | .print => (operand args 0).display ++ "\n"
  | _ => ""

/-- the data that a call shows: what it prints, or the operands that the message of its fault names -/
def shown (b : Builtin) (args : List Datum) : List Datum :=
  match b, b.result args with
  | .print, _ => [operand args 0]
  | _, .error (.notSequence _ got) => [got]
  | _, .error (.badOperands _ x y) => [x, y]
  | _, _ => []

/-- whether the lists of all data that a call shows are nested at most `limit` deep -/
def showsWithin (limit : Nat) (b : Builtin) (args : List Datum) : Bool := (b.shown args).all (·.nestedWithin limit)

/-- a call of a builtin, where data are shown whose lists are nested at most `limit` deep -/
def call (limit : Nat) (b : Builtin) (args : List Datum) : Run Datum := fun w =>
  if b.showsWithin limit args then (b.result args, w.print (b.output args)) else (.error .tooDeep, w)

theorem call_of_showsWithin {limit : Nat} {b : Builtin} {args : List Datum} (h : b.showsWithin limit args = true)
    (w : World) : b.call limit args w = (b.result args, w.print (b.output args)) := if_pos h

theorem call_store (limit : Nat) (b : Builtin) (args : List Datum) (w : World) :
    (b.call limit args w).2.store = w.store := by
  simp only [call]
  split <;> rfl

theorem call_printed (limit : Nat) (b : Builtin) (args : List Datum) (w : World) :
    (b.call limit args w).2.printed = w.printed ++ if b.showsWithin limit args then b.output args else "" := by
  simp only [call]
  split <;> simp [World.print]

/-- what a call shows within a limit it shows within every larger one -/
theorem showsWithin_mono {small large : Nat} (hle : small ≤ large) {b : Builtin} {args : List Datum}
    (h : b.showsWithin small args = true) : b.showsWithin large args = true :=
  List.all_eq_true.2 fun d hmem => Datum.nestedWithin_mono hle (List.all_eq_true.1 h d hmem)

theorem output_eq_empty {b : Builtin} (h : b ≠ .print) (args : List Datum) : b.output args = "" := by
  cases b <;> first | rfl | exact absurd rfl h

/-- the names of the builtins with the builtins, as a fresh root frame binds them -/
def bindings : Bindings := all.map fun b => (b.name, .builtin b)

end FrameLisp.Builtin
