/-
Data: program code and run-time values in one type.

A program is read as atoms and lists of them, a run produces numbers, texts, lists, closures and builtins, and
the two mix: lists hold either, and a closure holds the code of its body together with the frame that it was
made in. `Datum.induct` is the induction that goes through the items of lists and the bodies of closures.
-/
import FrameLisp.Atom
import FrameLisp.Builtin

namespace FrameLisp

/-- frames are numbered in the order in which they are made -/
abbrev FrameId := Nat

/-- a piece of code or a value -/
inductive Datum where
  /-- a leaf of a program text -/
  | atom (a : Atom)
  | list (items : List Datum)
  /-- the value where there is none -/
  | absent
  | number (x : Float)
  | text (s : String)
  /-- a function made by a program, with the frame that its body sees around its parameters -/
  | closure (params : List String) (body : List Datum) (frame : FrameId)
  | builtin (b : Builtin)

namespace Datum

instance : Inhabited Datum := ⟨.absent⟩

/-- what holds of every datum if it holds of a list once it holds of its items and of a closure once it holds of
its body -/
@[elab_as_elim]
theorem induct {motive : Datum → Prop} (atom : ∀ a, motive (.atom a))
    (list : ∀ items, (∀ d ∈ items, motive d) → motive (.list items)) (absent : motive .absent)
    (number : ∀ x, motive (.number x)) (text : ∀ s, motive (.text s))
    (closure : ∀ params body frame, (∀ d ∈ body, motive d) → motive (.closure params body frame))
    (builtin : ∀ b, motive (.builtin b)) (d : Datum) : motive d :=
  @Datum.rec motive (fun items => ∀ d ∈ items, motive d)
    atom list absent number text closure builtin
    (fun _ hmem => absurd hmem List.not_mem_nil)
    (fun _ _ hhead htail _ hmem => by
      rcases List.mem_cons.1 hmem with rfl | hmem
      · exact hhead
      · exact htail _ hmem)
    d

/-- the name of an identifier -/
def identifier? : Datum → Option String
  | .atom (.identifier name) => some name
  | _ => none

/-- whether a call of this value does something -/
def isFunction : Datum → Bool
  | .closure .. => true
  | .builtin _ => true
  | _ => false

/-- whether a condition with this value holds: all values but the zeros, the empty text, the empty list and the
absent one -/
def holds : Datum → Bool
  | .number x => !Number.isZero x
  | .text s => s != ""
  | .list items => !items.isEmpty
  | .absent => false
  | _ => true

theorem identifier?_eq_some_iff {d : Datum} {name : String} :
    d.identifier? = some name ↔ d = .atom (.identifier name) := by
  constructor
  · intro h
    match d, h with
    | .atom (.identifier _), h => cases h; rfl
  · rintro rfl
    rfl

end Datum

end FrameLisp
