/-
Evaluation where frames are spread over several frames.

Code is run in a frame of one store, and in the frame that it sees in place of that one in another store, over which the
frames of the first are spread. The two runs go step by step together (`Evaluator.Spreads`): both find the same values
up to the numbers of frames, make frames in step and print the same, and both come to a value or both to a fault. What
has to be kept to is that a name is bound in a frame only if that frame stands alone in its place
(`Spreading.Admits`); the frames of calls and let forms do (`Datum.evaluate_spreads`).
-/
import FrameLisp.Proofs.Evaluation.Renumbering
import FrameLisp.Proofs.Store.Spread

namespace FrameLisp

/-- the frames are spread, and the same was printed -/
structure World.Spread (p : Spreading) (w v : World) : Prop where
  store : w.store.Spread p v.store
  printed : v.printed = w.printed

/-- data that may be evaluated in a live frame: names are bound in it only where it stands alone -/
structure Spreading.Admits (p : Spreading) (f : FrameId) (d : Datum) : Prop where
  live : f ∈ p.live
  holds : p.Holds d
  place : p.Alone f ∨ ∀ x, ¬ d.Defines x

namespace Evaluator

variable {α β γ δ : Type} {p : Spreading}

/-- `x` and `y` come to the same but for the numbers of frames, to a result that meets `held` and to `act` of it, or to
faults that a user reads the same -/
abbrev Spreads (p : Spreading) (act : α → β) (held : α → Prop) (x : Run α) (y : Run β) : Prop :=
  Effect.Coupled (World.Spread p) (fun e e' => e' = e.renumber p.number) (fun a b => b = act a ∧ held a) x y

theorem Spreads.bind {act : α → β} {act' : γ → δ} {held : α → Prop} {held' : γ → Prop} {x : Run α} {y : Run β}
    {next : α → Run γ} {next' : β → Run δ} (h : Spreads p act held x y)
    (hnext : ∀ a, held a → Spreads p act' held' (next a) (next' (act a))) :
    Spreads p act' held' (x >>= next) (y >>= next') := by
  refine Effect.Coupled.bind h fun a b hab => ?_
  rw [hab.1]
  exact hnext a hab.2

theorem spreads_pure (act : α → β) {held : α → Prop} {a : α} (ha : held a) :
    Spreads p act held (pure a) (pure (act a)) := Effect.coupled_pure ⟨rfl, ha⟩

theorem spreads_fail (act : α → β) (held : α → Prop) (fault : Fault) :
    Spreads p act held (Effect.fail fault) (Effect.fail (fault.renumber p.number)) :=
  Effect.coupled_fail rfl

theorem spreads_noteAll (notes notes' : List Note) :
    Spreads p id (fun _ => True) (Effect.noteAll notes) (Effect.noteAll notes') :=
  fun _ _ h => Effect.coupledAt_noteAll ⟨h.store, h.printed⟩ ⟨rfl, trivial⟩

/-- a new frame is live and stands alone -/
theorem spreads_newFrame {f : FrameId} (hf : f ∈ p.live) {bindings : Bindings} (hbindings : bindings.All p.Holds) :
    Spreads p p.number (fun inner => inner ∈ p.live ∧ p.Alone inner) (Effect.newFrame bindings (some f))
      (Effect.newFrame (bindings.renumber p.number) (some (p.number f))) := by
  intro w v h
  obtain ⟨hlive, -, halone⟩ := h.store.fresh w.store.size le_rfl
  exact Or.inl ⟨_, _, _, _, rfl, rfl, ⟨h.store.push hf hbindings, h.printed⟩, h.store.size.symm, hlive, halone⟩

theorem spreads_define {f : FrameId} (halone : p.Alone f) (x : String) {v : Datum} (hv : p.Holds v) :
    Spreads p id (fun _ => True) (Effect.define f x v) (Effect.define (p.number f) x (v.renumber p.number)) :=
  fun _ _ h => Or.inl ⟨_, _, _, _, rfl, rfl, ⟨h.store.define halone x hv, h.printed⟩, rfl, trivial⟩

theorem spreads_lookup {f : FrameId} (hf : f ∈ p.live) (x : String) :
    Spreads p (Datum.renumber p.number) p.Holds (Run.lookup f x) (Run.lookup (p.number f) x) :=
  fun _ _ h => Run.lookup_coupledAt h (h.store.lookup? hf x) (fun _ hu => ⟨rfl, h.store.lookup?_holds hf hu⟩) rfl

theorem spreads_builtin (room : Nat) (b : Builtin) {args : List Datum} (hargs : ∀ a ∈ args, p.Holds a) :
    Spreads p (Datum.renumber p.number) p.Holds (b.call room args)
      (b.call room (args.map (Datum.renumber p.number))) := by
  intro w v h
  refine (Datum.transport_renumber p.number).call_coupledAt room b args h ?_ (fun u hu => ⟨rfl, ?_⟩)
    fun fault => (fault.renumber_eq_map _).symm
  · rw [Builtin.output_renumber]
    exact ⟨h.store, congrArg (· ++ b.output args) h.printed⟩
  · exact Datum.allClosures_result hargs hu

/-! ## One level of evaluation -/

section

variable {ev : Evaluator}
  (hev : ∀ d f, p.Admits f d →
    Spreads p (Datum.renumber p.number) p.Holds (ev d f) (ev (d.renumber p.number) (p.number f)))

include hev

theorem each_spreads {f : FrameId} {ds : List Datum} (hds : ∀ d ∈ ds, p.Admits f d) :
    Spreads p (List.map (Datum.renumber p.number)) (fun vs => ∀ v ∈ vs, p.Holds v) (ev.each f ds)
      (ev.each (p.number f) (ds.map (Datum.renumber p.number))) := by
  induction ds with
  | nil => exact spreads_pure (List.map (Datum.renumber p.number)) (a := []) (by simp)
  | cons d ds ih =>
    rw [List.forall_mem_cons] at hds
    refine (hev d f hds.1).bind fun v hv => ?_
    refine (ih hds.2).bind fun vs hvs => ?_
    exact spreads_pure (List.map (Datum.renumber p.number)) (a := v :: vs) (List.forall_mem_cons.2 ⟨hv, hvs⟩)

theorem sequence_spreads {f : FrameId} {ds : List Datum} (hds : ∀ d ∈ ds, p.Admits f d) {last : Datum}
    (hlast : p.Holds last) :
    Spreads p (Datum.renumber p.number) p.Holds (ev.sequence f last ds)
      (ev.sequence (p.number f) (last.renumber p.number) (ds.map (Datum.renumber p.number))) := by
  induction ds generalizing last with
  | nil => exact spreads_pure _ hlast
  | cons d ds ih =>
    rw [List.forall_mem_cons] at hds
    exact (hev d f hds.1).bind fun v hv => ih hds.2 hv

theorem fill_spreads {f : FrameId} (hf : f ∈ p.live) (halone : p.Alone f) {bindings : List Datum}
    (hbindings : ∀ b ∈ bindings, p.Holds b) :
    Spreads p id (fun _ => True) (ev.fill f bindings)
      (ev.fill (p.number f) (bindings.map (Datum.renumber p.number))) := by
  induction bindings with
  | nil => exact spreads_pure id trivial
  | cons b bindings ih =>
    rw [List.forall_mem_cons] at hbindings
    simp only [List.map_cons, Evaluator.fill, (Datum.recoding_renumber p.number).binding?_eq]
    cases hb : binding? b with
    | none => exact spreads_fail id _ (.malformedBinding b)
    | some binding =>
      obtain ⟨x, e⟩ := binding
      have he : p.Holds e := by
        have hlist := hbindings.1
        rw [binding?_eq_some_iff.1 hb] at hlist
        exact Datum.allClosures_list.1 hlist e (by simp)
      refine (hev e f ⟨hf, he, Or.inl halone⟩).bind fun v hv => ?_
      exact (spreads_define halone x hv).bind fun _ _ => ih hbindings.2

theorem call_spreads (room : Nat) {function : Datum} {args : List Datum} (hfunction : p.Holds function)
    (hargs : ∀ a ∈ args, p.Holds a) :
    Spreads p (Datum.renumber p.number) p.Holds (ev.call room function args)
      (ev.call room (function.renumber p.number) (args.map (Datum.renumber p.number))) := by
  cases function with
  | closure params body captured =>
    obtain ⟨hcaptured, hbody⟩ := Datum.allClosures_closure.1 hfunction
    have hbindings : Bindings.All p.Holds (Bindings.ofPairs (Bindings.ofParams params args)) :=
      Bindings.all_ofPairs (Bindings.all_ofParams Datum.allClosures_absent hargs params)
    have hnew := spreads_newFrame hcaptured hbindings
    rw [Bindings.ofParams_renumber] at hnew
    rw [Datum.renumber_closure]
    refine hnew.bind fun inner hinner => ?_
    exact sequence_spreads hev (fun d hd => ⟨hinner.1, hbody d hd, Or.inl hinner.2⟩) Datum.allClosures_absent
  | builtin b => exact spreads_builtin room b hargs
  | list items => exact spreads_fail _ _ (.notFunction (.list items))
  | atom | absent | number | text => exact spreads_fail _ _ (.notFunction _)

theorem perform_spreads (room : Nat) {f : FrameId} {d : Datum} (h : p.Admits f d) :
    Spreads p (Datum.renumber p.number) p.Holds (d.shape.perform room ev f)
      ((d.shape.renumber p.number).perform room ev (p.number f)) := by
  obtain ⟨hf, hholds, hplace⟩ := h
  have hd := d.hasShape_shape
  have hpart : d.shape.opensFrame = false → ∀ e ∈ d.shape.parts, p.Admits f e := by
    intro hopens e he
    refine ⟨hf, Datum.AllClosures.part hholds he, hplace.imp_right fun hnone x hx => ?_⟩
    exact hnone x (.part hd hopens he hx)
  have hinner : ∀ inner, inner ∈ p.live ∧ p.Alone inner → ∀ e ∈ d.shape.parts, p.Admits inner e :=
    fun inner hinner e he => ⟨hinner.1, Datum.AllClosures.part hholds he, Or.inl hinner.2⟩
  cases hs : d.shape with
  | value v => exact spreads_pure _ (Datum.AllClosures.of_value hholds hs)
  | name x => exact spreads_lookup hf x
  | items head args =>
    rw [hs] at hpart
    have hparts := hpart rfl
    simp only [Shape.parts, List.forall_mem_cons] at hparts
    refine (hev head f hparts.1).bind fun function hfunction => ?_
    refine (each_spreads hev hparts.2).bind fun values hvalues => ?_
    rw [(Datum.transport_renumber p.number).isFunction_eq]
    split
    · exact call_spreads hev room hfunction hvalues
    · rw [← List.map_cons, ← Datum.renumber_list]
      exact spreads_pure _ (Datum.allClosures_list.2 (List.forall_mem_cons.2 ⟨hfunction, hvalues⟩))
  | define x body =>
    rw [hs] at hd hpart
    have halone : p.Alone f := hplace.resolve_right fun hnone => hnone x (.target hd)
    refine (hev body f (hpart rfl body (by simp [Shape.parts]))).bind fun v hv => ?_
    exact (spreads_define halone x hv).bind fun _ _ => spreads_pure _ hv
  | conditional condition consequent alternative =>
    rw [hs] at hpart
    have hparts := hpart rfl
    refine (hev condition f (hparts _ (by simp [Shape.parts]))).bind fun v _ => ?_
    rw [(Datum.transport_renumber p.number).holds_eq]
    split
    · exact hev consequent f (hparts _ (by simp [Shape.parts]))
    · cases alternative with
      | none => exact spreads_pure (Datum.renumber p.number) (a := .absent) Datum.allClosures_absent
      | some alternative => exact hev alternative f (hparts _ (by simp [Shape.parts]))
  | block bindings body =>
    rw [hs] at hinner
    refine (spreads_newFrame hf Bindings.all_nil).bind fun inner hnew => ?_
    have hparts := hinner inner hnew
    have hbindings : ∀ b ∈ bindings, p.Holds b := fun b hb => (hparts b (by simp [Shape.parts, hb])).holds
    refine (fill_spreads hev hnew.1 hnew.2 hbindings).bind fun _ _ => ?_
    exact hev body inner (hparts body (by simp [Shape.parts]))
  | function params body =>
    have hbody : ∀ e ∈ body, p.Holds e := fun e he => Datum.AllClosures.part hholds (by simp [hs, Shape.parts, he])
    rw [Shape.renumber, Shape.perform, Shape.perform, ← Datum.renumber_closure]
    exact spreads_pure _ (Datum.allClosures_closure.2 ⟨hf, hbody⟩)
  | malformed fault => exact spreads_fail _ _ fault

end

end Evaluator

/-- **Frames may be spread**: a datum comes to the same where frames are spread over several frames, up to the numbers,
and prints the same -/
theorem Datum.evaluate_spreads (p : Spreading) (room depth : Nat) {d : Datum} {f : FrameId} (h : p.Admits f d) :
    Evaluator.Spreads p (renumber p.number) p.Holds (d.evaluate room depth f)
      ((d.renumber p.number).evaluate room depth (p.number f)) := by
  induction depth generalizing d f with
  | zero => exact Evaluator.spreads_fail _ _ .tooDeep
  | succ depth ih =>
    rw [evaluate_succ, evaluate_succ, evaluateWith_eq, evaluateWith_eq, shape_renumber]
    refine (Evaluator.spreads_noteAll _ _).bind fun _ _ => ?_
    exact Evaluator.perform_spreads (fun d f hd => ih hd) room h

end FrameLisp
