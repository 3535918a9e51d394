/-
Notes change nothing, and nor does what was printed.

Computations agree when, in worlds that differ in their notes at most, they come to the same result or the same fault
and leave worlds that differ in their notes at most (`Effect.Agree`). Agreement goes step by step (`Agree.bind`), and a
note agrees with nothing at all (`agree_note`).

A computation only appends when, in worlds with the same frames, it comes to the same and adds the same to the printed
text (`Effect.Appends`). Then it agrees with itself (`Appends.agree`). Evaluations are of this kind, since not even the
numbers of frames matter to them (`Datum.value_appends`).
-/
import FrameLisp.Program
import FrameLisp.Proofs.Evaluation.Renumbering

namespace FrameLisp

/-- the same but for the notes -/
structure World.Agree (w v : World) : Prop where
  store : w.store = v.store
  printed : w.printed = v.printed

namespace World.Agree

variable {u v w : World}

theorem refl (w : World) : w.Agree w := ⟨rfl, rfl⟩

theorem symm (h : w.Agree v) : v.Agree w := ⟨h.store.symm, h.printed.symm⟩

theorem trans (h : w.Agree v) (h' : v.Agree u) : w.Agree u := ⟨h.store.trans h'.store, h.printed.trans h'.printed⟩

/-- worlds that agree are alike, with every frame under its own number -/
theorem iff_alike : w.Agree v ↔ World.Alike id "" "" w v := by
  constructor
  · rintro ⟨hstore, hprinted⟩
    refine ⟨Store.renumbered_id_iff.2 hstore, v.printed, ?_, ?_⟩
    · rw [String.empty_append, hprinted]
    · rw [String.empty_append]
  · rintro ⟨hstore, out, hw, hv⟩
    exact ⟨Store.renumbered_id_iff.1 hstore, hw.trans hv.symm⟩

end World.Agree

namespace Effect

variable {ε ε' α β : Type}

/-- two computations come to the same but for notes, those that they find and those that they make -/
def Agree (x y : Effect ε α) : Prop := Coupled World.Agree Eq Eq x y

namespace Agree

variable {x y z : Effect ε α}

theorem iff_forall : Agree x y ↔ ∀ w v, w.Agree v → (x w).1 = (y v).1 ∧ (x w).2.Agree (y v).2 := coupled_eq_iff

theorem symm (h : Agree x y) : Agree y x := by
  rw [iff_forall] at h ⊢
  intro w v hwv
  obtain ⟨hresult, hagree⟩ := h v w hwv.symm
  exact ⟨hresult.symm, hagree.symm⟩

theorem trans (h : Agree x y) (h' : Agree y z) : Agree x z := by
  rw [iff_forall] at h h' ⊢
  intro w v hwv
  obtain ⟨hresult, hagree⟩ := h w w (.refl w)
  obtain ⟨hresult', hagree'⟩ := h' w v hwv
  exact ⟨hresult.trans hresult', hagree.trans hagree'⟩

theorem bind {next next' : α → Effect ε β} (h : Agree x y) (hnext : ∀ a, Agree (next a) (next' a)) :
    Agree (x >>= next) (y >>= next') :=
  Coupled.bind h fun a _ hab => hab ▸ hnext a

theorem mapFault (rename : ε → ε') (h : Agree x y) : Agree (x.mapFault rename) (y.mapFault rename) :=
  Coupled.mapFault h fun _ _ he => congrArg rename he

end Agree

theorem agree_pure (a : α) : Agree (pure a : Effect ε α) (pure a) := coupled_pure rfl

theorem agree_fail (e : ε) : Agree (fail e : Effect ε α) (fail e) := coupled_fail rfl

/-- a computation after some notes -/
theorem agree_noteAll {x y : Effect ε α} (notes : List Note) (h : Agree x y) :
    Agree (do noteAll notes; x) y := by
  rw [Agree.iff_forall] at h ⊢
  intro w v hwv
  rw [bind_ok (noteAll_apply notes w)]
  exact h _ v ⟨hwv.store, hwv.printed⟩

theorem agree_note {x y : Effect ε α} (n : Note) (h : Agree x y) : Agree (do note n; x) y :=
  agree_noteAll [n] h

/-! ## What was printed before -/

/-- whatever was printed and noted before, the computation comes to the same where the frames are the same, and adds the
same to the printed text -/
def Appends (x : Effect ε α) : Prop := ∀ p q, Coupled (World.Alike id p q) Eq Eq x x

theorem appends_pure (a : α) : Appends (pure a : Effect ε α) := fun _ _ => coupled_pure rfl

theorem appends_fail (e : ε) : Appends (fail e : Effect ε α) := fun _ _ => coupled_fail rfl

theorem appends_ofExcept (r : Except ε α) : Appends (ofExcept r) :=
  fun _ _ => coupled_eq_iff.2 fun _ _ h => ⟨rfl, h⟩

theorem appends_noteAll (notes : List Note) : Appends (noteAll notes : Effect ε Unit) := by
  intro p q
  rw [coupled_eq_iff]
  intro w v h
  rw [noteAll_apply, noteAll_apply]
  exact ⟨rfl, h.store, h.printed⟩

theorem appends_note (n : Note) : Appends (note n : Effect ε Unit) := appends_noteAll [n]

namespace Appends

variable {x : Effect ε α}

theorem bind {next : α → Effect ε β} (h : x.Appends) (hnext : ∀ a, (next a).Appends) : (x >>= next).Appends :=
  fun p q => (h p q).bind fun a _ hab => hab ▸ hnext a p q

theorem mapFault (rename : ε → ε') (h : x.Appends) : (x.mapFault rename).Appends :=
  fun p q => (h p q).mapFault fun _ _ he => congrArg rename he

/-- so notes do not change it -/
theorem agree (h : x.Appends) : Agree x x := by
  rw [Agree.iff_forall]
  intro w v hwv
  obtain ⟨hresult, halike⟩ := coupled_eq_iff.1 (h "" "") w v (World.Agree.iff_alike.1 hwv)
  exact ⟨hresult, World.Agree.iff_alike.2 halike⟩

/-- what comes out in two worlds with the same frames -/
theorem outcome (h : x.Appends) {w v : World} (hstore : w.store = v.store) :
    (x w).1 = (x v).1 ∧ (x w).2.store = (x v).2.store ∧
      ∃ out, (x w).2.printed = w.printed ++ out ∧ (x v).2.printed = v.printed ++ out := by
  have hstart : World.Alike id w.printed v.printed w v := by
    refine ⟨Store.renumbered_id_iff.2 hstore, "", ?_, ?_⟩
    · rw [String.append_empty]
    · rw [String.append_empty]
  obtain ⟨hresult, hstore', hprinted⟩ := coupled_eq_iff.1 (h w.printed v.printed) w v hstart
  exact ⟨hresult, Store.renumbered_id_iff.1 hstore', hprinted⟩

end Appends

end Effect

open Effect

/-- an evaluation comes to the same whatever was printed and noted before -/
theorem Datum.value_appends (limits : Limits) (d : Datum) (frame : FrameId) : (d.value limits frame).Appends := by
  intro p q
  rw [coupled_eq_iff]
  intro w v h
  have halike := d.evaluate_alike id p q limits.display limits.evaluation frame
  rw [renumber_id] at halike
  obtain ⟨hresult, hworld⟩ := halike.outcome h
  rw [renumberOutcome_id] at hresult
  exact ⟨hresult.symm, hworld⟩

theorem Evaluator.each_appends (limits : Limits) (frame : FrameId) (forms : List Datum) :
    ((Datum.value limits).each frame forms).Appends := by
  induction forms with
  | nil => exact appends_pure _
  | cons d ds ih =>
    refine (d.value_appends limits frame).bind fun value => ?_
    exact ih.bind fun values => appends_pure _

end FrameLisp
