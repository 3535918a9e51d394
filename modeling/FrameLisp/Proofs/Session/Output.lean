/-
What a session prints.

Reading a text, running it, loading a prelude and starting a session only append to what was printed before, and it does
not matter to them (`Effect.Appends`). So a session that is started after some text was printed is the session that is
started with nothing printed, with that text in front (`Session.start_after`).
-/
import FrameLisp.Proofs.Evaluation.Notes

namespace FrameLisp

open Effect

theorem Program.read_appends (limits : Limits) (source : String) : (read limits source).Appends := by
  unfold read
  dsimp only
  split
  · refine (appends_noteAll _).bind fun _ => ?_
    exact (appends_note _).bind fun _ => appends_pure _
  · exact (appends_noteAll _).bind fun _ => appends_fail _

theorem Program.run_appends (limits : Limits) (frame : FrameId) (source : String) : (run limits frame source).Appends :=
  (read_appends limits source).bind fun forms => Evaluator.each_appends limits frame forms

namespace Prelude

theorem evaluate_appends (limits : Limits) (frame : FrameId) (source : String) :
    (evaluate limits frame source).Appends := by
  rw [evaluate]
  refine Appends.mapFault LoadFault.program ?_
  exact (Program.run_appends limits frame source).bind fun _ => appends_pure _

theorem loadEach_appends (s : Surroundings) (frame : FrameId) (directory : Path) (names : List String) :
    (loadEach s frame directory names).Appends := by
  induction names with
  | nil => exact appends_pure _
  | cons name names ih =>
    refine (appends_note _).bind fun _ => ?_
    refine (appends_ofExcept _).bind fun source => ?_
    exact (evaluate_appends s.limits frame source).bind fun _ => ih

theorem load_appends (s : Surroundings) (frame : FrameId) : (load s frame).Appends := by
  unfold load
  refine (appends_ofExcept _).bind fun directory => ?_
  refine (appends_ofExcept _).bind fun found => ?_
  split
  · exact loadEach_appends s frame directory _
  · exact appends_fail _

theorem loadIfPresent_appends (s : Surroundings) (frame : FrameId) : (loadIfPresent s frame).Appends := by
  intro p q w v h
  have hload := load_appends s frame p q w v h
  rcases hload with ⟨a, w', b, v', hw, hv, halike, rfl⟩ | ⟨e, w', e', v', hw, hv, halike, rfl⟩
  · rw [CoupledAt, loadIfPresent_ok hw, loadIfPresent_ok hv]
    exact Or.inl ⟨a, w', a, v', rfl, rfl, halike, rfl⟩
  · by_cases hmissing : ∃ path, e = .missing path
    · obtain ⟨path, rfl⟩ := hmissing
      rw [CoupledAt, loadIfPresent_missing hw, loadIfPresent_missing hv]
      exact Or.inl ⟨(), _, (), _, rfl, rfl, ⟨halike.store, halike.printed⟩, rfl⟩
    · have hother : ∀ path, e ≠ .missing path := not_exists.1 hmissing
      rw [CoupledAt, loadIfPresent_eq_error_iff.2 ⟨hw, hother⟩, loadIfPresent_eq_error_iff.2 ⟨hv, hother⟩]
      exact Or.inr ⟨e, w', e, v', rfl, rfl, halike, rfl⟩

end Prelude

namespace Session

theorem start_appends (s : Surroundings) (beginning : Beginning) : (start s beginning).Appends := by
  have hroot : (newRoot : Load FrameId).Appends := by
    intro p q
    rw [coupled_eq_iff]
    intro w v h
    obtain ⟨hstore, hprinted⟩ := h
    have heq : w.store = v.store := Store.renumbered_id_iff.1 hstore
    have hsize : (Except.ok w.store.size : Except LoadFault FrameId) = .ok v.store.size := by rw [heq]
    refine ⟨hsize, ?_, hprinted⟩
    exact hstore.push Builtin.bindings none
  refine hroot.bind fun root => ?_
  cases beginning with
  | nothing => exact appends_pure root
  | prelude => exact (Prelude.loadIfPresent_appends s root).bind fun _ => appends_pure root
  | program source => exact (Prelude.evaluate_appends s.limits root source).bind fun _ => appends_pure root

/-- a session that is started after a text was printed has that text in front of what it prints -/
theorem start_after {s : Surroundings} {beginning : Beginning} {root : FrameId} {w : World}
    (h : start s beginning World.empty = (.ok root, w)) (text : String) :
    ∃ v, start s beginning (World.empty.print text) = (.ok root, v) ∧ v.store = w.store ∧
      v.printed = text ++ w.printed := by
  have hstart : (World.empty.print text).store = World.empty.store := rfl
  obtain ⟨hresult, hstore, out, hout, hout'⟩ := (start_appends s beginning).outcome hstart
  have hempty : World.empty.printed ++ out = out := String.empty_append
  have hprinted : (World.empty.print text).printed = text := String.empty_append
  rw [h] at hresult hstore hout'
  rw [hprinted] at hout
  refine ⟨(start s beginning (World.empty.print text)).2, Prod.ext hresult rfl, hstore, ?_⟩
  rw [hout, ← hempty, ← hout']

end Session

end FrameLisp
