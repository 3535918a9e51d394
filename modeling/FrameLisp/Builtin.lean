/-
The names of the seven builtin functions. What they do is in `FrameLisp.Builtin.Call`.
-/

namespace FrameLisp

inductive Builtin where
  | first
  | rest
  | print
  | add
  | subtract
  | multiply
  | divide
  deriving DecidableEq, Repr

namespace Builtin

/-- in the order in which a fresh root frame lists them -/
def all : List Builtin := [.first, .rest, .print, .add, .subtract, .multiply, .divide]

/-- the identifier that a root frame binds to a builtin -/
def name : Builtin → String
  | .first => "first"
  | .rest => "rest"
  | .print => "print"
  | .add => "+"
  | .subtract => "-"
  | .multiply => "*"
  | .divide => "/"

/-- the builtin of a name -/
def ofName? (name : String) : Option Builtin :=
  all.find? (·.name == name)

theorem mem_all (b : Builtin) : b ∈ all := by
  cases b <;> decide

theorem ofName?_name (b : Builtin) : ofName? b.name = some b := by
  cases b <;> decide

theorem name_injective {b c : Builtin} (h : b.name = c.name) : b = c := by
  have := ofName?_name b
  rw [h, ofName?_name c] at this
  exact (Option.some.inj this).symm

end Builtin

end FrameLisp
