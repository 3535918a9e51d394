/-
Reachable stores are well-formed.

A store is reachable when it comes from the empty one by making frames, binding names, and evaluating data with faults
or without (`Store.Reachable`). An evaluation that starts in a well-formed store ends in one that has no fewer frames,
and the closures of its value captured frames that are there (`Datum.evaluate_wellFormed`), so reachable stores are
well-formed (`Reachable.wellFormed`). The stores of sessions are reachable (`Session.after_reachable`).
-/
import FrameLisp.Proofs.Builtin
import FrameLisp.Proofs.Evaluation.Locality
import FrameLisp.Proofs.Store.WellFormed

namespace FrameLisp

namespace Store

/-- `t` is well-formed and has no fewer frames than `s` -/
structure Grown (s t : Store) : Prop where
  size_le : s.size ≤ t.size
  wellFormed : t.WellFormed

/-- what an evaluation may start with: a well-formed store, a frame of it, and data whose closures captured frames of
it -/
structure Ready (s : Store) (f : FrameId) (ds : List Datum) : Prop where
  wellFormed : s.WellFormed
  frame_lt : f < s.size
  within : ∀ d ∈ ds, d.Within s.size

variable {s t u : Store} {f : FrameId} {d : Datum} {ds : List Datum}

theorem WellFormed.grown (h : s.WellFormed) : s.Grown s := ⟨le_rfl, h⟩

theorem Grown.trans (h₁ : s.Grown t) (h₂ : t.Grown u) : s.Grown u := ⟨h₁.size_le.trans h₂.size_le, h₂.wellFormed⟩

theorem WellFormed.grown_define (h : s.WellFormed) (f : FrameId) (x : String) {v : Datum} (hv : v.Within s.size) :
    s.Grown (s.define f x v) := by
  refine ⟨?_, h.define f x hv⟩
  rw [size_define]

theorem WellFormed.grown_push (h : s.WellFormed) {bindings : Bindings} (hbindings : bindings.All (Datum.Within s.size))
    {outer : FrameId} (houter : outer < s.size) : s.Grown (s.push bindings (some outer)) := by
  refine ⟨by simp, h.push hbindings fun g hg => ?_⟩
  cases hg
  exact houter

namespace Ready

theorem grown (h : s.Ready f ds) (hst : s.Grown t) : t.Ready f ds := by
  refine ⟨hst.wellFormed, h.frame_lt.trans_le hst.size_le, fun d hd => ?_⟩
  exact (h.within d hd).mono hst.size_le

theorem subset {es : List Datum} (h : s.Ready f ds) (hsub : ∀ e ∈ es, e ∈ ds) : s.Ready f es :=
  ⟨h.wellFormed, h.frame_lt, fun e he => h.within e (hsub e he)⟩

theorem head (h : s.Ready f (d :: ds)) : s.Ready f [d] := h.subset (by simp)

theorem tail (h : s.Ready f (d :: ds)) : s.Ready f ds := h.subset (by simp +contextual)

/-- an evaluation goes on with the parts of the datum -/
theorem parts (h : s.Ready f [d]) {shape : Shape} (hd : d.HasShape shape) : s.Ready f shape.parts := by
  refine ⟨h.wellFormed, h.frame_lt, fun e he => ?_⟩
  rw [← hd.shape_eq] at he
  exact Datum.AllClosures.part (h.within d (by simp)) he

/-- the value of a binding of a let form -/
theorem binding {x : String} {body : Datum} (h : s.Ready f (.list [Datum.identifier x, body] :: ds)) :
    s.Ready f [body] := by
  have hlist := Datum.allClosures_list.1 (h.within _ List.mem_cons_self)
  refine ⟨h.wellFormed, h.frame_lt, fun e he => ?_⟩
  rw [List.mem_singleton.1 he]
  exact hlist body (by simp)

/-- a let form goes on in a new frame -/
theorem inner (h : s.Ready f ds) : (s.push [] (some f)).Ready s.size ds := by
  have hgrown : s.Grown (s.push [] (some f)) := h.wellFormed.grown_push Bindings.all_nil h.frame_lt
  exact ⟨hgrown.wellFormed, by simp, (h.grown hgrown).within⟩

/-- a call goes on in a new frame inside the one that the closure captured -/
theorem call {params : List String} {body : List Datum} {captured : FrameId} {args : List Datum} (h : s.WellFormed)
    (hvalues : ∀ v ∈ Datum.closure params body captured :: args, v.Within s.size) :
    (s.push (Bindings.ofPairs (Bindings.ofParams params args)) (some captured)).Ready s.size body := by
  rw [List.forall_mem_cons] at hvalues
  obtain ⟨hcaptured, hbody⟩ := Datum.allClosures_closure.1 hvalues.1
  have hbound := Bindings.all_ofPairs (Bindings.all_ofParams Datum.allClosures_absent hvalues.2 params)
  have hgrown := h.grown_push hbound hcaptured
  refine ⟨hgrown.wellFormed, by simp, fun d hd => ?_⟩
  exact Datum.Within.mono (hbody d hd) hgrown.size_le

end Ready

end Store

/-! ## One level of evaluation -/

namespace Evaluator

variable {α β : Type} {w : World}

/-- `x` ends in a well-formed store with no fewer frames, where its result meets `ok` -/
abbrev EndsWell (x : Run α) (w : World) (ok : Store → α → Prop) : Prop :=
  x.EndsIn Store.Grown (fun _ => True) w ok

/-- `x` ends with a value whose closures captured frames that are there -/
abbrev EndsWithin (x : Run Datum) (w : World) : Prop := EndsWell x w fun s v => v.Within s.size

theorem EndsWell.bind {x : Run α} {next : α → Run β} {ok : Store → α → Prop} {done : Store → β → Prop}
    (h : EndsWell x w ok) (hnext : ∀ a w', w.store.Grown w'.store → ok w'.store a → EndsWell (next a) w' done) :
    EndsWell (x >>= next) w done :=
  Effect.EndsIn.bind h hnext fun _ _ _ => Store.Grown.trans

theorem endsWell_pure (h : w.store.WellFormed) {ok : Store → α → Prop} {a : α} (ha : ok w.store a) :
    EndsWell (pure a) w ok :=
  Effect.endsIn_ok rfl h.grown ha

theorem endsWell_fail (h : w.store.WellFormed) (fault : Fault) (ok : Store → α → Prop) :
    EndsWell (Effect.fail fault) w ok :=
  Effect.endsIn_error rfl h.grown trivial

theorem endsWell_define (h : w.store.WellFormed) (f : FrameId) (x : String) {v : Datum} (hv : v.Within w.store.size) :
    EndsWell (Effect.define f x v) w fun _ _ => True :=
  Effect.endsIn_ok rfl (h.grown_define f x hv) trivial

variable {ev : Evaluator} (hev : ∀ d f w, w.store.Ready f [d] → EndsWithin (ev d f) w)

include hev

theorem each_endsWell {f : FrameId} {ds : List Datum} (h : w.store.Ready f ds) :
    EndsWell (ev.each f ds) w fun s vs => ∀ v ∈ vs, v.Within s.size := by
  induction ds generalizing w with
  | nil => exact endsWell_pure h.wellFormed (by simp)
  | cons d ds ih =>
    refine (hev d f w h.head).bind ?_
    intro v w₁ h₁ hv
    refine (ih (h.tail.grown h₁)).bind ?_
    intro vs w₂ h₂ hvs
    have hv₂ := hv.mono h₂.size_le
    exact endsWell_pure h₂.wellFormed (List.forall_mem_cons.2 ⟨hv₂, hvs⟩)

theorem sequence_endsWell {f : FrameId} {ds : List Datum} (h : w.store.Ready f ds) {last : Datum}
    (hlast : last.Within w.store.size) : EndsWithin (ev.sequence f last ds) w := by
  induction ds generalizing w last with
  | nil => exact endsWell_pure h.wellFormed hlast
  | cons d ds ih =>
    refine (hev d f w h.head).bind ?_
    intro v w₁ h₁ hv
    exact ih (h.tail.grown h₁) hv

theorem fill_endsWell {f : FrameId} {bindings : List Datum} (h : w.store.Ready f bindings) :
    EndsWell (ev.fill f bindings) w fun _ _ => True := by
  induction bindings generalizing w with
  | nil => exact endsWell_pure h.wellFormed trivial
  | cons b bindings ih =>
    unfold Evaluator.fill
    split
    · exact endsWell_fail h.wellFormed _ _
    · next x body hb =>
      rw [binding?_eq_some_iff] at hb
      subst hb
      refine (hev body f w h.binding).bind ?_
      intro v w₁ h₁ hv
      refine (endsWell_define h₁.wellFormed f x hv).bind ?_
      intro _ w₂ h₂ _
      exact ih (h.tail.grown (h₁.trans h₂))

theorem call_endsWell (room : Nat) (h : w.store.WellFormed) {function : Datum} {args : List Datum}
    (hvalues : ∀ v ∈ function :: args, v.Within w.store.size) : EndsWithin (ev.call room function args) w := by
  unfold Evaluator.call
  split
  · next params body captured =>
    have hready := Store.Ready.call h hvalues
    have hgrown : w.store.Grown (w.store.push _ (some captured)) := ⟨by simp, hready.wellFormed⟩
    have hnew : EndsWell (Effect.newFrame (Bindings.ofPairs (Bindings.ofParams params args)) (some captured)) w
        fun s inner => s.Ready inner body :=
      Effect.endsIn_ok rfl hgrown hready
    refine hnew.bind ?_
    intro inner w₁ h₁ hinner
    exact sequence_endsWell hev hinner Datum.allClosures_absent
  · next b =>
    rw [List.forall_mem_cons] at hvalues
    refine Builtin.call_endsIn h.grown (fun v hv => ?_) (fun _ _ => trivial) trivial
    exact Datum.allClosures_result hvalues.2 hv
  · exact endsWell_fail h _ _

theorem perform_endsWell (room : Nat) {f : FrameId} {d : Datum} (h : w.store.Ready f [d]) :
    EndsWithin (d.shape.perform room ev f) w := by
  have hd := d.hasShape_shape
  have hparts := h.parts hd
  cases hs : d.shape with
  | value v =>
    have hself : d.Within w.store.size := h.within d (by simp)
    exact endsWell_pure h.wellFormed (hself.of_value hs)
  | name x =>
    rw [Shape.perform]
    refine Run.lookup_ends (fun v hv => ⟨h.wellFormed.grown, ?_⟩) ⟨h.wellFormed.grown, trivial⟩
    exact h.wellFormed.within.lookup hv
  | items head args =>
    rw [hs] at hparts
    refine (hev head f w hparts.head).bind ?_
    intro function w₁ h₁ hfunction
    refine (each_endsWell hev (hparts.tail.grown h₁)).bind ?_
    intro values w₂ h₂ hvalues
    have hall := List.forall_mem_cons.2 ⟨hfunction.mono h₂.size_le, hvalues⟩
    split
    · exact call_endsWell hev room h₂.wellFormed hall
    · exact endsWell_pure h₂.wellFormed (Datum.allClosures_list.2 hall)
  | define x body =>
    rw [hs] at hparts
    refine (hev body f w hparts.head).bind ?_
    intro v w₁ h₁ hv
    refine (endsWell_define h₁.wellFormed f x hv).bind ?_
    intro _ w₂ h₂ _
    exact endsWell_pure h₂.wellFormed (hv.mono h₂.size_le)
  | conditional condition consequent alternative =>
    rw [hs] at hparts
    refine (hev condition f w hparts.head).bind ?_
    intro v w₁ h₁ _
    have hrest := hparts.tail.grown h₁
    split
    · exact hev consequent f w₁ hrest.head
    · cases alternative with
      | none => exact endsWell_pure h₁.wellFormed Datum.allClosures_absent
      | some alternative => exact hev alternative f w₁ hrest.tail.head
  | block bindings body =>
    rw [hs] at hparts
    have hgrown := h.wellFormed.grown_push Bindings.all_nil h.frame_lt
    have hnew : EndsWell (Effect.newFrame [] (some f)) w fun s inner => s.Ready inner (body :: bindings) :=
      Effect.endsIn_ok rfl hgrown hparts.inner
    refine hnew.bind ?_
    intro inner w₁ h₁ hinner
    refine (fill_endsWell hev hinner.tail).bind ?_
    intro _ w₂ h₂ _
    exact hev body inner w₂ (hinner.head.grown h₂)
  | function params body =>
    rw [hs] at hparts
    exact endsWell_pure h.wellFormed (Datum.allClosures_closure.2 ⟨h.frame_lt, hparts.within⟩)
  | malformed fault => exact endsWell_fail h.wellFormed _ _

end Evaluator

/-- **Evaluation keeps stores well-formed**, and its value has only closures of the store that it leaves -/
theorem Datum.evaluate_wellFormed (room depth : Nat) (d : Datum) (f : FrameId) (w : World) (h : w.store.Ready f [d]) :
    Evaluator.EndsWithin (d.evaluate room depth f) w := by
  induction depth generalizing d f w with
  | zero => exact Evaluator.endsWell_fail h.wellFormed _ _
  | succ depth ih =>
    rw [evaluate_succ, evaluateWith_eq]
    refine Evaluator.EndsWell.bind (Effect.endsIn_noteAll h.wellFormed.grown _) ?_
    intro _ w₁ h₁ _
    exact Evaluator.perform_endsWell ih room (h.grown h₁)

/-! ## Reachable stores -/

/-- the stores that come from the empty one by making frames, binding names and evaluating data -/
inductive Store.Reachable : Store → Prop
  | empty : Reachable .empty
  | frame {s : Store} (h : Reachable s) {pairs : List (String × Datum)}
      (hpairs : ∀ pair ∈ pairs, pair.2.Within s.size) {outer : Option FrameId}
      (houter : ∀ g, outer = some g → g < s.size) : Reachable (s.push (Bindings.ofPairs pairs) outer)
  | define {s : Store} (h : Reachable s) (f : FrameId) (x : String) {v : Datum} (hv : v.Within s.size) :
      Reachable (s.define f x v)
  | evaluate {w : World} (h : Reachable w.store) (room depth : Nat) {d : Datum} {f : FrameId}
      (hf : f < w.store.size) (hd : d.Within w.store.size) : Reachable (d.evaluate room depth f w).2.store

theorem Store.Reachable.wellFormed {s : Store} (h : s.Reachable) : s.WellFormed := by
  induction h with
  | empty => exact wellFormed_empty
  | frame _ hpairs houter ih => exact ih.push (Bindings.all_ofPairs hpairs) houter
  | define _ f x hv ih => exact ih.define f x hv
  | @evaluate w _ room depth d f hf hd ih =>
    have hends := d.evaluate_wellFormed room depth f w ⟨ih, hf, by simpa using hd⟩
    cases hw : d.evaluate room depth f w with
    | mk r w' =>
      cases r with
      | ok v => exact (hends.of_ok hw).1.wellFormed
      | error fault => exact (hends.of_error hw).1.wellFormed

/-! ## Sessions -/

/-- what keeps a store reachable, and a frame in it -/
def Store.StaysReachable (f : FrameId) (s t : Store) : Prop :=
  s.Reachable → f < s.size → t.Reachable ∧ f < t.size

theorem Session.keeps_staysReachable (limits : Limits) (root : FrameId) :
    Session.Keeps (Store.StaysReachable root) limits root := by
  refine ⟨fun s h hf => ⟨h, hf⟩, fun s t u h₁ h₂ h hf => ?_, fun d hd w h hf => ?_⟩
  · obtain ⟨ht, hft⟩ := h₁ h hf
    exact h₂ ht hft
  · refine ⟨h.evaluate limits.display limits.evaluation hf hd.allClosures, hf.trans_le ?_⟩
    exact (Datum.evaluate_changesOnly limits.display limits.evaluation d root w).size_le

theorem Store.Reachable.newRoot {s : Store} (h : s.Reachable) : (s.push Builtin.bindings none).Reachable := by
  have hbindings : Builtin.bindings = Bindings.ofPairs Builtin.bindings := rfl
  rw [hbindings]
  refine h.frame (fun pair hpair => ?_) fun g hg => ?_
  · obtain ⟨b, -, rfl⟩ := List.mem_map.1 hpair
    exact Datum.allClosures_builtin b
  · cases hg

/-- **The stores of sessions are reachable**, whatever a session begins with and whatever its steps come to -/
theorem Session.after_reachable (s : Surroundings) (beginning : Beginning) {w : World} (h : w.store.Reachable)
    (steps : List Step) : (after s w.store.size (start s beginning w).2 steps).store.Reachable := by
  have hsize : w.store.size < (w.store.push Builtin.bindings none).size := by simp
  have hkeeps := keeps_staysReachable s.limits w.store.size
  obtain ⟨hstart, hroot⟩ := hkeeps.start beginning h.newRoot hsize
  exact (hkeeps.after _ steps hstart hroot).1

end FrameLisp
