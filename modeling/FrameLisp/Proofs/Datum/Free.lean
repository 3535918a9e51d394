/-
What does not occur in a datum.

`d.Free bad` says that nothing inside a datum meets `bad`, neither in lists nor in the bodies of closures. Where `bad`
is about functions only, this is known of a list once it is known of its items (`free_list`), and it passes from a datum
to the parts that its evaluation goes on with (`Free.part`). That all closures of a datum meet some condition is of this
kind (`allClosures_iff_free`).

A datum holds what it is and what its items hold (`HeldIn`); unlike what is inside, what stands in the body of a closure
is not held. Where the bodies of closures were read from a text (`CodeRead`), a builtin is inside a datum just if it is
held (`inside_builtin_iff`), and so is a closure in any case (`exists_inside_closure_iff`).
-/
import FrameLisp.Proofs.Datum.Closures

namespace FrameLisp

namespace Datum

/-- nothing that stands inside a datum meets `bad` -/
def Free (bad : Datum → Prop) (d : Datum) : Prop := ∀ e, e.Inside d → ¬ bad e

/-- only closures and builtins meet `bad` -/
def OnlyFunctions (bad : Datum → Prop) : Prop := ∀ d, bad d → d.isFunction = true

variable {bad : Datum → Prop} {d e : Datum}

theorem Free.of_inside (h : d.Free bad) (he : e.Inside d) : e.Free bad := fun c hc => h c (hc.trans he)

/-- what evaluation goes on with -/
theorem Free.part (h : d.Free bad) (he : e ∈ d.shape.parts) : e.Free bad := h.of_inside (inside_of_mem_parts he)

theorem free_closure {params : List String} {body : List Datum} {frame : FrameId} :
    (Datum.closure params body frame).Free bad ↔ ¬ bad (.closure params body frame) ∧ ∀ c ∈ body, c.Free bad := by
  refine ⟨fun h => ⟨h _ .self, fun c hc => h.of_inside (.form hc .self)⟩, ?_⟩
  rintro ⟨hself, hbody⟩ c hc
  cases hc with
  | self => exact hself
  | form hmem hc => exact hbody _ hmem c hc

theorem free_builtin {b : Builtin} : (Datum.builtin b).Free bad ↔ ¬ bad (.builtin b) := by
  refine ⟨fun h => h _ .self, fun h c hc => ?_⟩
  cases hc
  exact h

/-- a condition on closures is a condition on what is inside -/
theorem allClosures_iff_free {p : List String → List Datum → FrameId → Prop} :
    d.AllClosures p ↔ d.Free fun c => ∃ params body frame, c = .closure params body frame ∧ ¬ p params body frame := by
  constructor
  · rintro h c hc ⟨params, body, frame, rfl, hp⟩
    exact hp (h params body frame hc)
  · intro h params body frame hc
    by_contra hp
    exact h _ hc ⟨params, body, frame, rfl, hp⟩

/-! ## Conditions on functions -/

section OnlyFunctions

variable (hbad : OnlyFunctions bad)

include hbad

theorem OnlyFunctions.not_bad (h : d.isFunction = false) : ¬ bad d := by
  intro hd
  rw [hbad d hd] at h
  cases h

/-- data that are no functions and have no items -/
theorem free_leaf (h : d.isFunction = false) (hlist : ∀ items, d ≠ .list items) : d.Free bad := by
  intro c hc
  cases hc with
  | self => exact hbad.not_bad h
  | item => exact absurd rfl (hlist _)
  | form => cases h

theorem free_list {items : List Datum} : (Datum.list items).Free bad ↔ ∀ c ∈ items, c.Free bad := by
  refine ⟨fun h c hc => h.of_inside (.item hc .self), fun h c hc => ?_⟩
  cases hc with
  | self => exact hbad.not_bad rfl
  | item hmem hc => exact h _ hmem c hc

theorem free_absent : Datum.absent.Free bad := free_leaf hbad rfl (by simp)

theorem free_number (x : Float) : (Datum.number x).Free bad := free_leaf hbad rfl (by simp)

theorem free_text (s : String) : (Datum.text s).Free bad := free_leaf hbad rfl (by simp)

/-- the value of a datum that is its own value, or a number or text -/
theorem Free.of_value {v : Datum} (h : d.Free bad) (hv : d.shape = .value v) : v.Free bad := by
  have hshape := hasShape_shape d
  rw [hv] at hshape
  cases hshape with
  | number => exact free_number hbad _
  | string => exact free_text hbad _
  | empty | value => exact h

end OnlyFunctions

/-! ## What a datum holds -/

/-- `e` is `d`, or an item of it, or an item of an item, and so on -/
inductive HeldIn (e : Datum) : Datum → Prop
  | self : HeldIn e e
  | item {d : Datum} {items : List Datum} (hmem : d ∈ items) (h : HeldIn e d) : HeldIn e (.list items)

/-- the bodies of all closures of a datum were read from a text -/
def CodeRead (d : Datum) : Prop := d.AllClosures fun _ body _ => ∀ c ∈ body, c.Parsed

theorem HeldIn.inside (h : e.HeldIn d) : e.Inside d := by
  induction h with
  | self => exact .self
  | item hmem _ ih => exact .item hmem ih

/-- a builtin does not stand in code that was read -/
theorem inside_builtin_iff {b : Builtin} (h : d.CodeRead) :
    (Datum.builtin b).Inside d ↔ (Datum.builtin b).HeldIn d := by
  refine ⟨fun hin => ?_, HeldIn.inside⟩
  induction hin with
  | self => exact .self
  | item hmem _ ih => exact .item hmem (ih (allClosures_list.1 h _ hmem))
  | form hmem hin _ =>
    have hparsed := ((allClosures_closure.1 h).1 _ hmem).of_inside hin
    cases hparsed

/-- a closure in the body of another one is not held, but the other one is -/
theorem exists_inside_closure_iff :
    (∃ params body frame, (Datum.closure params body frame).Inside d) ↔
      ∃ params body frame, (Datum.closure params body frame).HeldIn d := by
  constructor
  · rintro ⟨params, body, frame, hin⟩
    induction hin with
    | self => exact ⟨_, _, _, .self⟩
    | item hmem _ ih =>
      obtain ⟨params', body', frame', h⟩ := ih
      exact ⟨params', body', frame', .item hmem h⟩
    | form => exact ⟨_, _, _, .self⟩
  · rintro ⟨params, body, frame, h⟩
    exact ⟨params, body, frame, h.inside⟩

end Datum

end FrameLisp
