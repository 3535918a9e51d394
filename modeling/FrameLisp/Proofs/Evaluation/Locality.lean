/-
Evaluation changes the frame at hand and no other.

Whatever an evaluation comes to, a value or a fault, the frames that were there before are as they were, but for the
frame that it was evaluated in, and there it binds only names that the datum defines in its own frame
(`evaluate_changesOnly`). Calls and let forms work in frames of their own. The main statement `evaluation_is_local`
says this of evaluations, of calls, and of sessions.
-/
import FrameLisp.Proofs.Evaluation.Shape
import FrameLisp.Proofs.Session.Steps
import FrameLisp.Proofs.Store.Change

namespace FrameLisp

open Store (ChangesOnly)

/-! ## The names that a datum defines -/

/-- whether evaluation of a shape goes on in a frame of its own, now or when its value is called -/
def Shape.opensFrame : Shape → Bool
  | .block .. | .function .. => true
  | _ => false

/-- the names that a datum defines in the frame that it is evaluated in: the targets of its define forms outside all
lambda bodies and let forms -/
inductive Datum.Defines : Datum → String → Prop
  | target {d body : Datum} {x : String} (h : d.HasShape (.define x body)) : Defines d x
  | part {d e : Datum} {s : Shape} {x : String} (h : d.HasShape s) (hs : s.opensFrame = false) (he : e ∈ s.parts)
      (hx : Defines e x) : Defines d x

/-- which names a datum defines in its frame, by its shape -/
theorem Datum.defines_iff {d : Datum} {x : String} :
    d.Defines x ↔
      (∃ body, d.shape = .define x body) ∨ (d.shape.opensFrame = false ∧ ∃ e ∈ d.shape.parts, e.Defines x) := by
  refine ⟨?_, ?_⟩
  · intro h
    cases h with
    | target hd => exact Or.inl ⟨_, hd.shape_eq⟩
    | part hd hs he hx =>
      rw [← hd.shape_eq] at hs he
      exact Or.inr ⟨hs, _, he, hx⟩
  · rintro (⟨body, hbody⟩ | ⟨hs, e, he, hx⟩)
    · exact .target (hasShape_iff.2 hbody)
    · exact .part d.hasShape_shape hs he hx

/-! ## One level of evaluation -/

namespace Evaluator

variable {ev : Evaluator} {f : FrameId} {names : String → Prop}

theorem moves_pure {α : Type} (a : α) : (pure a : Run α).Moves (ChangesOnly f names) :=
  Effect.moves_of_store_eq ChangesOnly.refl fun _ => rfl

theorem moves_fail {α : Type} (fault : Fault) : (Effect.fail fault : Run α).Moves (ChangesOnly f names) :=
  Effect.moves_of_store_eq ChangesOnly.refl fun _ => rfl

theorem moves_noteAll (notes : List Note) : (Effect.noteAll notes : Run Unit).Moves (ChangesOnly f names) := by
  refine Effect.moves_of_store_eq ChangesOnly.refl fun w => ?_
  rw [Effect.noteAll_apply]

theorem moves_bind {α β : Type} {x : Run α} {next : α → Run β} (h : x.Moves (ChangesOnly f names))
    (hnext : ∀ a, (next a).Moves (ChangesOnly f names)) : (x >>= next).Moves (ChangesOnly f names) :=
  h.bind hnext fun _ _ _ => ChangesOnly.trans

/-- a computation that goes on in a new frame -/
theorem moves_newFrame {α : Type} (bindings : Bindings) (outer : Option FrameId) {next : FrameId → Run α}
    (hnext : ∀ inner, ∃ names, (next inner).Moves (ChangesOnly inner names)) :
    (Effect.newFrame bindings outer >>= next).Moves (ChangesOnly f names) := by
  intro w
  obtain ⟨inside, h⟩ := hnext w.store.size
  exact (h ⟨w.store.push bindings outer, w.printed, w.notes⟩).of_push f names

theorem lookup_world (x : String) (w : World) : (Run.lookup f x w).2 = w := by
  unfold Run.lookup
  split <;> rfl

variable (hev : ∀ d g, (ev d g).Moves (ChangesOnly g d.Defines))

include hev

theorem each_changesOnly {ds : List Datum} (hds : ∀ d ∈ ds, ∀ x, d.Defines x → names x) :
    (ev.each f ds).Moves (ChangesOnly f names) := by
  induction ds with
  | nil => exact moves_pure _
  | cons d ds ih =>
    rw [List.forall_mem_cons] at hds
    refine moves_bind (fun w => (hev d f w).mono hds.1) fun value => ?_
    exact moves_bind (ih hds.2) fun values => moves_pure _

theorem sequence_changesOnly (last : Datum) {ds : List Datum} (hds : ∀ d ∈ ds, ∀ x, d.Defines x → names x) :
    (ev.sequence f last ds).Moves (ChangesOnly f names) := by
  induction ds generalizing last with
  | nil => exact moves_pure _
  | cons d ds ih =>
    rw [List.forall_mem_cons] at hds
    exact moves_bind (fun w => (hev d f w).mono hds.1) fun value => ih value hds.2

theorem fill_changesOnly (bindings : List Datum) : (ev.fill f bindings).Moves (ChangesOnly f fun _ => True) := by
  induction bindings with
  | nil => exact moves_pure _
  | cons b bindings ih =>
    unfold Evaluator.fill
    split
    · exact moves_fail _
    · next x body _ =>
      refine moves_bind (fun w => (hev body f w).mono fun _ _ => trivial) fun value => ?_
      refine moves_bind (fun w => ?_) fun _ => ih
      exact (Store.changesOnly_define w.store f x value).mono fun _ _ => trivial

/-- a call changes no frame that was there before -/
theorem call_changesOnly (room : Nat) (function : Datum) (args : List Datum) :
    (ev.call room function args).Moves (ChangesOnly f names) := by
  unfold Evaluator.call
  split
  · next params body captured =>
    refine moves_newFrame _ _ fun inner => ⟨fun _ => True, ?_⟩
    exact sequence_changesOnly hev _ fun _ _ _ _ => trivial
  · next b => exact Effect.moves_of_store_eq ChangesOnly.refl fun w => Builtin.call_store room b args w
  · exact moves_fail _

theorem perform_changesOnly (room : Nat) (d : Datum) :
    (d.shape.perform room ev f).Moves (ChangesOnly f d.Defines) := by
  have hd := d.hasShape_shape
  generalize d.shape = s at hd
  cases s with
  | value v => exact moves_pure v
  | name x =>
    refine Effect.moves_of_store_eq ChangesOnly.refl fun w => ?_
    rw [Shape.perform, lookup_world]
  | items head args =>
    have hpart : ∀ e ∈ head :: args, ∀ x, e.Defines x → d.Defines x := fun e he x hx => .part hd rfl he hx
    rw [List.forall_mem_cons] at hpart
    refine moves_bind (fun w => (hev head f w).mono hpart.1) fun function => ?_
    refine moves_bind (each_changesOnly hev hpart.2) ?_
    intro values
    split
    · exact call_changesOnly hev room function values
    · exact moves_pure _
  | define x body =>
    refine moves_bind (fun w => (hev body f w).mono fun y hy => .part hd rfl List.mem_cons_self hy) fun value => ?_
    refine moves_bind (fun w => ?_) fun _ => moves_pure value
    refine (Store.changesOnly_define w.store f x value).mono fun y hy => ?_
    rw [hy]
    exact .target hd
  | conditional condition consequent alternative =>
    have hpart : ∀ e ∈ condition :: consequent :: alternative.toList, ∀ x, e.Defines x → d.Defines x :=
      fun e he x hx => .part hd rfl he hx
    refine moves_bind (fun w => (hev condition f w).mono (hpart _ (by simp))) fun value => ?_
    split
    · exact fun w => (hev consequent f w).mono (hpart _ (by simp))
    · cases alternative with
      | none => exact moves_pure _
      | some alternative => exact fun w => (hev alternative f w).mono (hpart _ (by simp))
  | block bindings body =>
    refine moves_newFrame _ _ fun inner => ⟨fun _ => True, ?_⟩
    refine moves_bind (fill_changesOnly hev bindings) ?_
    intro _
    exact fun w => (hev body inner w).mono fun _ _ => trivial
  | function params body => exact moves_pure _
  | malformed fault => exact moves_fail fault

end Evaluator

/-- **Locality of evaluation**: an evaluation changes the frame at hand and only names that the datum defines there -/
theorem Datum.evaluate_changesOnly (room depth : Nat) (d : Datum) (f : FrameId) :
    (d.evaluate room depth f).Moves (ChangesOnly f d.Defines) := by
  induction depth generalizing d f with
  | zero => exact Evaluator.moves_fail _
  | succ depth ih =>
    rw [evaluate_succ, evaluateWith_eq]
    exact Evaluator.moves_bind (Evaluator.moves_noteAll _) fun _ => Evaluator.perform_changesOnly ih room d

/-- what a session evaluates in its frame changes that frame and no other -/
theorem Session.keeps_changesOnly (limits : Limits) (root : FrameId) :
    Session.Keeps (ChangesOnly root fun _ => True) limits root := by
  refine ⟨ChangesOnly.refl, fun _ _ _ => ChangesOnly.trans, fun d _ w => ?_⟩
  exact (Datum.evaluate_changesOnly limits.display limits.evaluation d root w).mono fun _ _ => trivial

/-! ## Main statement -/

/-- **Evaluation is local.** However it ends, the evaluation of a datum keeps all other frames as they were and in its
own frame binds only names that the datum defines there. A call changes no frame that was there before, so not the one
that its closure captured. In a session, the frames that are there after some steps stay as they are, but for the
session's own. -/
theorem evaluation_is_local :
    (∀ (room depth : Nat) (d : Datum) (f : FrameId) (w : World),
      w.store.ChangesOnly f d.Defines (d.evaluate room depth f w).2.store) ∧
    (∀ (room depth : Nat) (function : Datum) (args : List Datum) (w : World) (g : FrameId), g < w.store.size →
      ((Datum.evaluate room depth).call room function args w).2.store.frame? g = w.store.frame? g) ∧
    ∀ (s : Surroundings) (root : FrameId) (w : World) (steps later : List Session.Step) (g : FrameId),
      g < (Session.after s root w steps).store.size → g ≠ root →
      (Session.after s root w (steps ++ later)).store.frame? g = (Session.after s root w steps).store.frame? g := by
  refine ⟨fun room depth d f w => Datum.evaluate_changesOnly room depth d f w, ?_, ?_⟩
  · intro room depth function args w g hg
    have hcall : w.store.ChangesOnly w.store.size (fun _ => True) _ :=
      Evaluator.call_changesOnly (Datum.evaluate_changesOnly room depth) room function args w
    exact hcall.elsewhere g hg (Nat.ne_of_lt hg)
  · intro s root w steps later g hg hne
    rw [Session.after_append]
    exact ((Session.keeps_changesOnly s.limits root).after _ later).elsewhere g hg hne

/-- the frame of a first call is not changed by a second one -/
theorem frame_of_call_stays :
    let s : Surroundings :=
      { settings := .unset, files := { root := .directory [], working := [] }, standardPrelude := ⟨.root, []⟩ }
    let w : World := ⟨.push .empty Builtin.bindings none, "", #[]⟩
    let steps : List Session.Step := [.eval "(define f (lambda (x) (define y x)))", .eval "(f 5)"]
    1 < (Session.after s 0 w steps).store.size ∧
      (Session.after s 0 w (steps ++ [.eval "(f 6)"])).store.frame? 1 = (Session.after s 0 w steps).store.frame? 1 := by
  intro s w steps
  have hsize : 1 < (Session.after s 0 w steps).store.size := by decide +kernel
  exact ⟨hsize, evaluation_is_local.2.2 s 0 w steps [.eval "(f 6)"] 1 hsize (by decide)⟩

end FrameLisp
