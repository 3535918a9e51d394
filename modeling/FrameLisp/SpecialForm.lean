/-
The four special forms: lists that do not evaluate all of their parts.
-/

namespace FrameLisp

inductive SpecialForm where
  | define
  | conditional
  | block
  | function
  deriving DecidableEq, Repr

namespace SpecialForm

def all : List SpecialForm := [.define, .conditional, .block, .function]

/-- the identifier that a list of this form starts with -/
def keyword : SpecialForm → String
  | .define => "define"
  | .conditional => "if"
  | .block => "let"
  | .function => "lambda"

/-- the special form of a keyword -/
def ofKeyword? (name : String) : Option SpecialForm :=
  all.find? (·.keyword == name)

theorem ofKeyword?_keyword (form : SpecialForm) : ofKeyword? form.keyword = some form := by
  cases form <;> decide

theorem ofKeyword?_eq_some_iff {name : String} {form : SpecialForm} :
    ofKeyword? name = some form ↔ name = form.keyword := by
  constructor
  · intro h
    have hfound := List.find?_some (p := fun f : SpecialForm => f.keyword == name) h
    exact (beq_iff_eq.1 hfound).symm
  · rintro rfl
    exact ofKeyword?_keyword form

end SpecialForm

end FrameLisp
