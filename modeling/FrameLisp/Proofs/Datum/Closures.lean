/-
The closures that occur in a datum.

A closure occurs in a list that holds it, in a list that holds that list, and so on, and also in the body of another
closure. `d.AllClosures p` says that all of them meet `p`. This is known of a list once it is known of its items
(`allClosures_list`), and it passes from a datum to the parts that its evaluation goes on with (`AllClosures.part`). A
datum that was read from a text has no closures at all (`Parsed.allClosures`).
-/
import FrameLisp.Proofs.Evaluation.Shape

namespace FrameLisp

namespace Datum

/-- `e` is `d`, or an item of it, or a form of its body, or stands inside one of those -/
inductive Inside (e : Datum) : Datum → Prop
  | self : Inside e e
  | item {d : Datum} {items : List Datum} (hmem : d ∈ items) (h : Inside e d) : Inside e (.list items)
  | form {d : Datum} {params : List String} {body : List Datum} {frame : FrameId} (hmem : d ∈ body)
      (h : Inside e d) : Inside e (.closure params body frame)

/-- every closure that occurs in a datum meets `p` -/
def AllClosures (p : List String → List Datum → FrameId → Prop) (d : Datum) : Prop :=
  ∀ params body frame, (Datum.closure params body frame).Inside d → p params body frame

variable {p q : List String → List Datum → FrameId → Prop}

theorem AllClosures.mono {d : Datum} (h : d.AllClosures p)
    (hpq : ∀ params body frame, p params body frame → q params body frame) : d.AllClosures q :=
  fun params body frame hin => hpq _ _ _ (h params body frame hin)

@[simp] theorem allClosures_atom (a : Atom) : AllClosures p (.atom a) := by
  intro params body frame h
  cases h

@[simp] theorem allClosures_absent : AllClosures p .absent := by
  intro params body frame h
  cases h

@[simp] theorem allClosures_number (x : Float) : AllClosures p (.number x) := by
  intro params body frame h
  cases h

@[simp] theorem allClosures_text (s : String) : AllClosures p (.text s) := by
  intro params body frame h
  cases h

@[simp] theorem allClosures_builtin (b : Builtin) : AllClosures p (.builtin b) := by
  intro params body frame h
  cases h

theorem allClosures_list {items : List Datum} : AllClosures p (.list items) ↔ ∀ d ∈ items, AllClosures p d := by
  refine ⟨?_, ?_⟩
  · intro h d hmem params body frame hin
    exact h _ _ _ (.item hmem hin)
  · intro h params body frame hin
    cases hin with
    | item hmem hin => exact h _ hmem _ _ _ hin

theorem allClosures_closure {params : List String} {body : List Datum} {frame : FrameId} :
    AllClosures p (.closure params body frame) ↔ p params body frame ∧ ∀ d ∈ body, AllClosures p d := by
  refine ⟨?_, ?_⟩
  · intro h
    exact ⟨h _ _ _ .self, fun d hmem _ _ _ hin => h _ _ _ (.form hmem hin)⟩
  · rintro ⟨hp, hbody⟩ params' body' frame' hin
    cases hin with
    | self => exact hp
    | form hmem hin => exact hbody _ hmem _ _ _ hin

/-! ## From a datum to the parts of its shape -/

/-- what evaluation goes on with stands inside the datum -/
theorem AllClosures.part {d e : Datum} (h : d.AllClosures p) (he : e ∈ d.shape.parts) : e.AllClosures p := by
  have hshape := hasShape_shape d
  generalize d.shape = s at hshape he
  cases hshape with
  | number | string | name | empty | value | defineArity | notDefinable | conditionalArity | blockShape |
    functionShape | badParameter => exact absurd he List.not_mem_nil
  | items _ args => exact allClosures_list.1 h e he
  | define x body =>
    rw [List.mem_singleton.1 he]
    exact allClosures_list.1 h body (by simp)
  | conditional condition consequent others =>
    refine allClosures_list.1 h e ?_
    simp only [Shape.parts, List.mem_cons, Option.mem_toList] at he ⊢
    rcases he with rfl | rfl | he
    · simp
    · simp
    · exact Or.inr (Or.inr (Or.inr (List.mem_of_mem_head? he)))
  | block bindings body =>
    simp only [ofForm, allClosures_list, List.forall_mem_cons] at h
    rcases List.mem_cons.1 he with rfl | he
    · exact h.2.2.1
    · exact h.2.1 e he
  | function params body =>
    refine allClosures_list.1 h e ?_
    exact List.mem_cons_of_mem _ (List.mem_cons_of_mem _ he)

theorem AllClosures.of_value {d v : Datum} (h : d.AllClosures p) (hv : d.shape = .value v) : v.AllClosures p := by
  have hshape := hasShape_shape d
  rw [hv] at hshape
  cases hshape with
  | number | string => simp
  | empty | value => exact h

/-! ## What stands inside -/

theorem inside_atom {e : Datum} {a : Atom} : e.Inside (.atom a) ↔ e = .atom a := by
  refine ⟨?_, ?_⟩
  · intro h
    cases h
    rfl
  · rintro rfl
    exact .self

theorem inside_list {e : Datum} {items : List Datum} :
    e.Inside (.list items) ↔ e = .list items ∨ ∃ d ∈ items, e.Inside d := by
  refine ⟨?_, ?_⟩
  · intro h
    cases h with
    | self => exact Or.inl rfl
    | item hmem h => exact Or.inr ⟨_, hmem, h⟩
  · rintro (rfl | ⟨d, hmem, h⟩)
    · exact .self
    · exact .item hmem h

theorem Inside.trans {d e f : Datum} (hd : d.Inside e) (he : e.Inside f) : d.Inside f := by
  induction he with
  | self => exact hd
  | item hmem _ ih => exact .item hmem ih
  | form hmem _ ih => exact .form hmem ih

/-- what evaluation goes on with stands inside the datum -/
theorem inside_of_mem_parts {d e : Datum} (he : e ∈ d.shape.parts) : e.Inside d := by
  have hshape := hasShape_shape d
  generalize d.shape = s at hshape he
  cases hshape with
  | number | string | name | empty | value | defineArity | notDefinable | conditionalArity | blockShape |
    functionShape | badParameter => exact absurd he List.not_mem_nil
  | items _ args => exact .item he .self
  | define x body =>
    rw [List.mem_singleton.1 he]
    exact .item (by simp) .self
  | conditional condition consequent others =>
    simp only [Shape.parts, List.mem_cons, Option.mem_toList] at he
    rcases he with rfl | rfl | he
    · exact .item (by simp) .self
    · exact .item (by simp) .self
    · exact .item (by simp [List.mem_of_mem_head? he]) .self
  | block bindings body =>
    rcases List.mem_cons.1 he with rfl | he
    · exact .item (by simp) .self
    · exact .item (List.mem_cons_of_mem _ List.mem_cons_self) (.item he .self)
  | function params body => exact .item (List.mem_cons_of_mem _ (List.mem_cons_of_mem _ he)) .self

/-- the names that evaluation looks up or binds stand inside the datum, as identifiers -/
theorem identifier_inside {d : Datum} {x : String} (hx : x ∈ d.shape.names) : (identifier x).Inside d := by
  have hshape := hasShape_shape d
  generalize d.shape = s at hshape hx
  cases hshape with
  | name y =>
    rw [List.mem_singleton.1 hx]
    exact .self
  | define y body =>
    rw [List.mem_singleton.1 hx]
    exact .item (by simp) .self
  | function params body =>
    have hlist : Datum.list (params.map identifier) ∈ identifier SpecialForm.function.keyword
        :: .list (params.map identifier) :: body := by simp
    exact .item hlist (.item (List.mem_map_of_mem hx) .self)
  | _ => exact absurd hx List.not_mem_nil

/-! ## What is read -/

/-- a datum as it is read from a text: atoms, and lists of such data -/
inductive Parsed : Datum → Prop
  | atom (a : Atom) : Parsed (.atom a)
  | list {items : List Datum} (h : ∀ d ∈ items, Parsed d) : Parsed (.list items)

theorem parsed_list {items : List Datum} : (Datum.list items).Parsed ↔ ∀ d ∈ items, d.Parsed := by
  refine ⟨?_, ?_⟩
  · rintro (_ | h)
    exact h
  · exact .list

theorem Parsed.of_inside {d e : Datum} (h : d.Parsed) (he : e.Inside d) : e.Parsed := by
  induction he with
  | self => exact h
  | item hmem _ ih => exact ih (parsed_list.1 h _ hmem)
  | form => cases h

theorem Parsed.allClosures {d : Datum} (h : d.Parsed) : d.AllClosures p := by
  induction h with
  | atom a => exact allClosures_atom a
  | list _ ih => exact allClosures_list.2 ih

end Datum

end FrameLisp
