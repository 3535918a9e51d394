/-
Bindings of names, in the order in which the names were first bound.

Binding a name again keeps its place and replaces its value, so each name is bound at most once
(`names_assign_nodup`). `value?` after `assign` is the new value for the name and the old one for every other
name (`value?_assign`).
-/
import FrameLisp.Datum

namespace FrameLisp

/-- names with their values -/
abbrev Bindings := List (String × Datum)

namespace Bindings

/-- the value of a name, if it is bound -/
def value? (bs : Bindings) (name : String) : Option Datum := bs.lookup name

def binds (bs : Bindings) (name : String) : Bool := (bs.value? name).isSome

/-- the bound names in the order in which they were first bound -/
def names (bs : Bindings) : List String := bs.map Prod.fst

/-- binds a name, at its old place if it has one and else at the end -/
def assign : Bindings → String → Datum → Bindings
  | [], name, value => [(name, value)]
  | b :: bs, name, value => if b.1 = name then (name, value) :: bs else b :: assign bs name value

/-- binds one name after another -/
def assignAll (bs : Bindings) (pairs : List (String × Datum)) : Bindings :=
  pairs.foldl (fun bs pair => bs.assign pair.1 pair.2) bs

/-- bindings from pairs, where a name that comes again keeps its place and takes the later value -/
def ofPairs (pairs : List (String × Datum)) : Bindings := assignAll [] pairs

/-- the parameters of a function bound to arguments; a missing argument is the absent value, and extra ones are
left out -/
def ofParams : List String → List Datum → List (String × Datum)
  | [], _ => []
  | param :: params, [] => (param, .absent) :: ofParams params []
  | param :: params, arg :: args => (param, arg) :: ofParams params args

@[simp] theorem value?_nil (name : String) : value? [] name = none := rfl

theorem value?_cons (b : String × Datum) (bs : Bindings) (name : String) :
    value? (b :: bs) name = if b.1 = name then some b.2 else value? bs name := by
  obtain ⟨bound, value⟩ := b
  by_cases h : bound = name
  · subst h
    simp [value?]
  · have hne : (name == bound) = false := beq_eq_false_iff_ne.2 (Ne.symm h)
    simp [value?, List.lookup_cons, hne, h]

theorem value?_assign (bs : Bindings) (name : String) (value : Datum) (other : String) :
    (bs.assign name value).value? other = if other = name then some value else bs.value? other := by
  induction bs with
  | nil =>
    rw [assign, value?_cons]
    by_cases h : other = name
    · simp [h]
    · simp [h, Ne.symm h]
  | cons b bs ih =>
    simp only [assign]
    by_cases hb : b.1 = name
    · rw [if_pos hb, value?_cons, value?_cons, hb]
      by_cases h : other = name
      · simp [h]
      · simp [h, Ne.symm h]
    · rw [if_neg hb, value?_cons, value?_cons, ih]
      by_cases ho : b.1 = other
      · have : other ≠ name := fun h => hb (ho.trans h)
        simp [ho, this]
      · simp [ho]

theorem binds_assign (bs : Bindings) (name : String) (value : Datum) (other : String) :
    (bs.assign name value).binds other = (decide (other = name) || bs.binds other) := by
  simp only [binds, value?_assign]
  by_cases h : other = name <;> simp [h]

theorem names_assign (bs : Bindings) (name : String) (value : Datum) :
    (bs.assign name value).names = if name ∈ bs.names then bs.names else bs.names ++ [name] := by
  induction bs with
  | nil => simp [assign, names]
  | cons b bs ih =>
    simp only [assign]
    by_cases hb : b.1 = name
    · rw [if_pos hb, if_pos (by simp [names, hb])]
      simp [names, hb]
    · rw [if_neg hb]
      have hcons : names (b :: assign bs name value) = b.1 :: names (assign bs name value) := rfl
      have hcons' : names (b :: bs) = b.1 :: names bs := rfl
      rw [hcons, ih, hcons']
      by_cases hmem : name ∈ names bs
      · simp [hmem]
      · simp [hmem, Ne.symm hb]

theorem names_assign_nodup {bs : Bindings} (h : bs.names.Nodup) (name : String) (value : Datum) :
    (bs.assign name value).names.Nodup := by
  rw [names_assign]
  split
  · exact h
  · next hmem =>
    rw [List.nodup_append]
    refine ⟨h, by simp, fun a ha b hb heq => ?_⟩
    rw [List.mem_singleton.1 hb] at heq
    exact hmem (heq ▸ ha)

theorem names_assignAll_nodup {bs : Bindings} (h : bs.names.Nodup) (pairs : List (String × Datum)) :
    (bs.assignAll pairs).names.Nodup := by
  induction pairs generalizing bs with
  | nil => exact h
  | cons pair pairs ih => exact ih (names_assign_nodup h _ _)

theorem names_ofPairs_nodup (pairs : List (String × Datum)) : (ofPairs pairs).names.Nodup :=
  @names_assignAll_nodup [] List.nodup_nil pairs

end Bindings

end FrameLisp
