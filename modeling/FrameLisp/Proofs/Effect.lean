/-
What holds where a computation ends.

Started in a world, a computation ends with a result that meets one condition or with a fault that meets another, in
the world that it leaves (`Ends`). A condition on all ends goes step by step (`Ends.bind`), and what it says of the
world at every end holds of the world that is left (`Ends.outcome`). So does a relation between
the stores before and after: one that holds whatever the store was (`Moves`), or one that is carried along together
with what it makes known of results and faults (`EndsIn`).

Two computations can be followed side by side. Started in two worlds they end in the same way, in related worlds and
with related results, where the relation of the results may depend on the store (`CoupledAt`); what follows may count on
the store that was there before (`CoupledAt.bind_after`). Where neither matters, two computations are coupled in all
worlds that are related (`Coupled`).
-/
import FrameLisp.Proofs.Store.Change
import Mathlib.Tactic

namespace FrameLisp

/-- `w'` has the frames of `w` and perhaps others, and `R` relates it to `v'` -/
structure World.After (w : World) (R : World → World → Prop) (w' v' : World) : Prop where
  grows : w.store.Extends w'.store
  related : R w' v'

namespace World.After

variable {R : World → World → Prop} {w w' w'' v' v'' : World}

theorem refl (h : R w v') : w.After R w v' := ⟨.refl _, h⟩

theorem trans (h : w.After R w' v') (h' : w'.After R w'' v'') : w.After R w'' v'' :=
  ⟨h.grows.trans h'.grows, h'.related⟩

end World.After

namespace Effect

variable {ε ε' α β : Type}

/-- a fault of two steps is a fault of the first, or of the second after the first -/
theorem bind_eq_error {x : Effect ε α} {next : α → Effect ε β} {w w' : World} {e : ε}
    (h : (x >>= next) w = (.error e, w')) :
    x w = (.error e, w') ∨ ∃ a w₁, x w = (.ok a, w₁) ∧ next a w₁ = (.error e, w') := by
  cases hx : x w with
  | mk r w₁ =>
    cases r with
    | error e₁ =>
      rw [bind_error hx] at h
      obtain ⟨he, rfl⟩ := Prod.mk.inj h
      cases he
      exact Or.inl rfl
    | ok a =>
      rw [bind_ok hx] at h
      exact Or.inr ⟨a, w₁, rfl, h⟩

/-- what comes before a fault is done, and the fault of the first step goes first -/
theorem bind_fail (x : Effect ε α) (e : ε) (w : World) :
    (x >>= fun _ => fail e : Effect ε β) w = ((x w).1.bind fun _ => .error e, (x w).2) := by
  rw [bind_apply]
  split
  · next h => rw [h]; rfl
  · next h => rw [h]; rfl

theorem mapFault_error {rename : ε → ε'} {x : Effect ε α} {w w' : World} {e : ε} (h : x w = (.error e, w')) :
    x.mapFault rename w = (.error (rename e), w') := by
  rw [mapFault, h]

theorem mapFault_eq_error {rename : ε → ε'} {x : Effect ε α} {w w' : World} {e' : ε'}
    (h : x.mapFault rename w = (.error e', w')) : ∃ e, x w = (.error e, w') ∧ rename e = e' := by
  rw [mapFault] at h
  split at h
  · cases h
  · next e w₁ hx =>
    obtain ⟨he, rfl⟩ := Prod.mk.inj h
    cases he
    exact ⟨e, hx, rfl⟩

/-! ## Ends -/

/-- `x`, started in `w`, ends with a result that meets `ok` or with a fault that meets `failed` -/
def Ends (x : Effect ε α) (w : World) (ok : α → World → Prop) (failed : ε → World → Prop) : Prop :=
  match x w with
  | (.ok a, w') => ok a w'
  | (.error e, w') => failed e w'

section Ends

variable {x : Effect ε α} {w : World} {ok ok' : α → World → Prop} {failed failed' : ε → World → Prop}

theorem Ends.of_ok {a : α} {w' : World} (h : x.Ends w ok failed) (hx : x w = (.ok a, w')) : ok a w' := by
  unfold Ends at h
  rw [hx] at h
  exact h

theorem Ends.of_error {e : ε} {w' : World} (h : x.Ends w ok failed) (hx : x w = (.error e, w')) : failed e w' := by
  unfold Ends at h
  rw [hx] at h
  exact h

theorem ends_of (hok : ∀ a w', x w = (.ok a, w') → ok a w') (hfailed : ∀ e w', x w = (.error e, w') → failed e w') :
    x.Ends w ok failed := by
  unfold Ends
  cases hx : x w with
  | mk r w' =>
    cases r with
    | ok a => exact hok a w' hx
    | error e => exact hfailed e w' hx

theorem ends_of_ok {a : α} {w' : World} (hx : x w = (.ok a, w')) (h : ok a w') : x.Ends w ok failed := by
  unfold Ends
  rw [hx]
  exact h

theorem ends_of_error {e : ε} {w' : World} (hx : x w = (.error e, w')) (h : failed e w') : x.Ends w ok failed := by
  unfold Ends
  rw [hx]
  exact h

theorem Ends.mono (h : x.Ends w ok failed) (hok : ∀ a w', ok a w' → ok' a w')
    (hfailed : ∀ e w', failed e w' → failed' e w') : x.Ends w ok' failed' :=
  ends_of (fun a w' hx => hok a w' (h.of_ok hx)) (fun e w' hx => hfailed e w' (h.of_error hx))

/-- a step and what follows it; a fault of the step is a fault of the whole -/
theorem Ends.bind {next : α → Effect ε β} {done : β → World → Prop} (h : x.Ends w ok failed)
    (hnext : ∀ a w', ok a w' → (next a).Ends w' done failed) : (x >>= next).Ends w done failed := by
  unfold Ends
  rw [bind_apply]
  cases hx : x w with
  | mk r w' =>
    cases r with
    | ok a => exact hnext a w' (h.of_ok hx)
    | error e => exact h.of_error hx

/-- what holds of the world wherever a computation ends holds of the one that it leaves -/
theorem Ends.outcome {left : World → Prop} {done : α → Prop}
    (h : x.Ends w (fun a w' => left w' ∧ done a) fun _ w' => left w') :
    left (x w).2 ∧ ∀ a, (x w).1 = .ok a → done a := by
  unfold Ends at h
  split at h
  · next a w' hx =>
    rw [hx]
    refine ⟨h.1, fun b hb => ?_⟩
    cases hb
    exact h.2
  · next e w' hx =>
    rw [hx]
    refine ⟨h, fun b hb => ?_⟩
    cases hb

end Ends

/-! ## The stores before and after -/

/-- the stores before and after are related, however the computation ends -/
def Moves (R : Store → Store → Prop) (x : Effect ε α) : Prop := ∀ w, R w.store (x w).2.store

section Moves

variable {R : Store → Store → Prop} {x : Effect ε α}

theorem moves_of_store_eq (hrefl : ∀ s, R s s) (h : ∀ w, (x w).2.store = w.store) : x.Moves R := by
  intro w
  rw [h w]
  exact hrefl _

theorem Moves.bind_of_ok {next : α → Effect ε β} (h : x.Moves R)
    (hnext : ∀ w a w', x w = (.ok a, w') → (next a).Moves R) (htrans : ∀ s t u, R s t → R t u → R s u) :
    (x >>= next).Moves R := by
  intro w
  have hx := h w
  rw [bind_apply]
  cases hxw : x w with
  | mk r w' =>
    rw [hxw] at hx
    cases r with
    | ok a => exact htrans _ _ _ hx (hnext w a w' hxw w')
    | error e => exact hx

theorem Moves.bind {next : α → Effect ε β} (h : x.Moves R) (hnext : ∀ a, (next a).Moves R)
    (htrans : ∀ s t u, R s t → R t u → R s u) : (x >>= next).Moves R :=
  h.bind_of_ok (fun _ a _ _ => hnext a) htrans

theorem Moves.mapFault {ε' : Type} (rename : ε → ε') (h : x.Moves R) : (x.mapFault rename).Moves R := by
  intro w
  have hx := h w
  unfold Effect.mapFault
  split
  · next a w' hxw => rwa [hxw] at hx
  · next e w' hxw => rwa [hxw] at hx

end Moves

/-- `x` ends in a store that `R` relates to the one before, with a result that meets `ok` there or a fault that meets
`failed` -/
def EndsIn (R : Store → Store → Prop) (failed : ε → Prop) (x : Effect ε α) (w : World) (ok : Store → α → Prop) : Prop :=
  x.Ends w (fun a w' => R w.store w'.store ∧ ok w'.store a) fun e w' => R w.store w'.store ∧ failed e

section EndsIn

variable {R : Store → Store → Prop} {failed : ε → Prop} {x : Effect ε α} {w w' : World} {ok ok' : Store → α → Prop}

theorem endsIn_ok {a : α} (hx : x w = (.ok a, w')) (hstore : R w.store w'.store) (ha : ok w'.store a) :
    x.EndsIn R failed w ok :=
  ends_of_ok hx ⟨hstore, ha⟩

theorem endsIn_error {e : ε} (hx : x w = (.error e, w')) (hstore : R w.store w'.store) (he : failed e) :
    x.EndsIn R failed w ok :=
  ends_of_error hx ⟨hstore, he⟩

theorem endsIn_noteAll (h : R w.store w.store) (notes : List Note) :
    (noteAll notes : Effect ε Unit).EndsIn R failed w fun _ _ => True :=
  endsIn_ok (noteAll_apply notes w) h trivial

theorem EndsIn.mono (h : x.EndsIn R failed w ok) (hok : ∀ s a, R w.store s → ok s a → ok' s a) :
    x.EndsIn R failed w ok' := by
  refine Ends.mono h (fun a w' ha => ?_) fun e w' he => he
  exact ⟨ha.1, hok _ a ha.1 ha.2⟩

theorem EndsIn.bind {next : α → Effect ε β} {done : Store → β → Prop} (h : x.EndsIn R failed w ok)
    (hnext : ∀ a w', R w.store w'.store → ok w'.store a → (next a).EndsIn R failed w' done)
    (htrans : ∀ s t u, R s t → R t u → R s u) : (x >>= next).EndsIn R failed w done := by
  refine Ends.bind h ?_
  intro a w' ha
  refine Ends.mono (hnext a w' ha.1 ha.2) (fun b w'' hb => ?_) fun e w'' he => ?_
  · exact ⟨htrans _ _ _ ha.1 hb.1, hb.2⟩
  · exact ⟨htrans _ _ _ ha.1 he.1, he.2⟩

end EndsIn

/-! ## Two computations side by side -/

/-- `x`, started in `w`, and `y`, started in `v`, both end with results or both with faults, in worlds that `R` relates:
with results that `ok` relates in the store that `x` leaves, or with faults that `failed` relates -/
def CoupledAt (R : World → World → Prop) (failed : ε → ε' → Prop) (ok : Store → α → β → Prop) (x : Effect ε α)
    (y : Effect ε' β) (w v : World) : Prop :=
  (∃ a w' b v', x w = (.ok a, w') ∧ y v = (.ok b, v') ∧ R w' v' ∧ ok w'.store a b) ∨
  (∃ e w' e' v', x w = (.error e, w') ∧ y v = (.error e', v') ∧ R w' v' ∧ failed e e')

/-- `x` and `y` are coupled in all worlds that `R` relates, with results that are related whatever the store is -/
def Coupled (R : World → World → Prop) (failed : ε → ε' → Prop) (ok : α → β → Prop) (x : Effect ε α)
    (y : Effect ε' β) : Prop :=
  ∀ w v, R w v → CoupledAt R failed (fun _ => ok) x y w v

section CoupledAt

variable {R R' : World → World → Prop} {failed : ε → ε' → Prop} {ok : Store → α → β → Prop} {x : Effect ε α}
  {y : Effect ε' β} {w v : World}

theorem coupledAt_pure (hR : R w v) {a : α} {b : β} (h : ok w.store a b) :
    CoupledAt R failed ok (pure a) (pure b) w v :=
  Or.inl ⟨a, w, b, v, rfl, rfl, hR, h⟩

theorem coupledAt_fail (hR : R w v) {e : ε} {e' : ε'} (h : failed e e') :
    CoupledAt R failed ok (fail e) (fail e') w v :=
  Or.inr ⟨e, w, e', v, rfl, rfl, hR, h⟩

/-- notes may be taken on either side -/
theorem coupledAt_noteAll {done : Store → Unit → Unit → Prop} {notes notes' : List Note}
    (hR : R { w with notes := w.notes ++ notes.toArray } { v with notes := v.notes ++ notes'.toArray })
    (h : done w.store () ()) : CoupledAt R failed done (noteAll notes) (noteAll notes') w v :=
  Or.inl ⟨_, _, _, _, noteAll_apply notes w, noteAll_apply notes' v, hR, h⟩

theorem CoupledAt.mono (h : CoupledAt R failed ok x y w v) (hR : ∀ w' v', R w' v' → R' w' v') :
    CoupledAt R' failed ok x y w v := by
  rcases h with ⟨a, w', b, v', hx, hy, hR', hab⟩ | ⟨e, w', e', v', hx, hy, hR', he⟩
  · exact Or.inl ⟨a, w', b, v', hx, hy, hR _ _ hR', hab⟩
  · exact Or.inr ⟨e, w', e', v', hx, hy, hR _ _ hR', he⟩

theorem CoupledAt.bind {γ δ : Type} {done : Store → γ → δ → Prop} {next : α → Effect ε γ} {next' : β → Effect ε' δ}
    (h : CoupledAt R failed ok x y w v)
    (hnext : ∀ a b w' v', R w' v' → ok w'.store a b → CoupledAt R failed done (next a) (next' b) w' v') :
    CoupledAt R failed done (x >>= next) (y >>= next') w v := by
  rcases h with ⟨a, w', b, v', hx, hy, hR, hab⟩ | ⟨e, w', e', v', hx, hy, hR, he⟩
  · rw [CoupledAt, bind_ok hx, bind_ok hy]
    exact hnext a b w' v' hR hab
  · refine Or.inr ⟨e, w', e', v', ?_, ?_, hR, he⟩
    · rw [bind_error hx]
    · rw [bind_error hy]

theorem CoupledAt.mapFault {ε₁ ε₁' : Type} {failed' : ε₁ → ε₁' → Prop} {rename : ε → ε₁} {rename' : ε' → ε₁'}
    (h : CoupledAt R failed ok x y w v) (hfailed : ∀ e e', failed e e' → failed' (rename e) (rename' e')) :
    CoupledAt R failed' ok (x.mapFault rename) (y.mapFault rename') w v := by
  rcases h with ⟨a, w', b, v', hx, hy, hR, hab⟩ | ⟨e, w', e', v', hx, hy, hR, he⟩
  · refine Or.inl ⟨a, w', b, v', ?_, ?_, hR, hab⟩
    · rw [Effect.mapFault, hx]
    · rw [Effect.mapFault, hy]
  · refine Or.inr ⟨rename e, w', rename' e', v', ?_, ?_, hR, hfailed e e' he⟩
    · rw [Effect.mapFault, hx]
    · rw [Effect.mapFault, hy]

/-- where `x` keeps adding to its store, what follows may count on all that was there before -/
theorem CoupledAt.bind_after {γ δ : Type} {done : Store → γ → δ → Prop} {next : α → Effect ε γ}
    {next' : β → Effect ε' δ} (h : CoupledAt (w.After R) failed ok x y w v)
    (hnext : ∀ a b w' v', w.store.Extends w'.store → R w' v' → ok w'.store a b →
      CoupledAt (w'.After R) failed done (next a) (next' b) w' v') :
    CoupledAt (w.After R) failed done (x >>= next) (y >>= next') w v := by
  refine h.bind fun a b w' v' hw' hab => ?_
  exact (hnext a b w' v' hw'.grows hw'.related hab).mono fun _ _ hw'' => hw'.trans hw''

end CoupledAt

section Coupled

variable {R : World → World → Prop} {failed : ε → ε' → Prop} {ok : α → β → Prop} {x : Effect ε α} {y : Effect ε' β}

theorem coupled_pure {a : α} {b : β} (h : ok a b) : Coupled R failed ok (pure a) (pure b) :=
  fun _ _ hR => coupledAt_pure hR h

theorem coupled_fail {e : ε} {e' : ε'} (h : failed e e') : Coupled R failed ok (fail e) (fail e') :=
  fun _ _ hR => coupledAt_fail hR h

theorem Coupled.bind {γ δ : Type} {done : γ → δ → Prop} {next : α → Effect ε γ} {next' : β → Effect ε' δ}
    (h : Coupled R failed ok x y) (hnext : ∀ a b, ok a b → Coupled R failed done (next a) (next' b)) :
    Coupled R failed done (x >>= next) (y >>= next') :=
  fun w v hR => (h w v hR).bind fun a b w' v' hR' hab => hnext a b hab w' v' hR'

theorem Coupled.mapFault {ε₁ ε₁' : Type} {failed' : ε₁ → ε₁' → Prop} {rename : ε → ε₁} {rename' : ε' → ε₁'}
    (h : Coupled R failed ok x y) (hfailed : ∀ e e', failed e e' → failed' (rename e) (rename' e')) :
    Coupled R failed' ok (x.mapFault rename) (y.mapFault rename') :=
  fun w v hR => (h w v hR).mapFault hfailed

/-- to the same result, that is, or to the same fault -/
theorem coupled_eq_iff {x y : Effect ε α} :
    Coupled R Eq Eq x y ↔ ∀ w v, R w v → (x w).1 = (y v).1 ∧ R (x w).2 (y v).2 := by
  constructor
  · intro h w v hR
    rcases h w v hR with ⟨a, w', b, v', hx, hy, hR', rfl⟩ | ⟨e, w', e', v', hx, hy, hR', rfl⟩
    · rw [hx, hy]
      exact ⟨rfl, hR'⟩
    · rw [hx, hy]
      exact ⟨rfl, hR'⟩
  · intro h w v hR
    obtain ⟨hresult, hR'⟩ := h w v hR
    cases hx : x w with
    | mk r w' =>
      cases hy : y v with
      | mk r' v' =>
        rw [hx, hy] at hresult hR'
        obtain rfl : r = r' := hresult
        cases r with
        | ok a => exact Or.inl ⟨a, w', a, v', hx, hy, hR', rfl⟩
        | error e => exact Or.inr ⟨e, w', e, v', hx, hy, hR', rfl⟩

end Coupled

end Effect

end FrameLisp
