/-
What the natural semantics derives, the program evaluates.

Given enough room and depth, a run ends as a derivation says: with its result, in its store, having printed its text
(`evaluate_of_evaluates`). The proof goes down the derivation; the limits that suffice for a rule come from those that
suffice for its premises. With soundness this makes the program an implementation of the semantics
(`evaluator_implements_semantics`), and derivations are unique since runs are.
-/
import FrameLisp.Proofs.Semantics.Sound

namespace FrameLisp.Semantics

open Datum (identifier)

variable {α β : Type} {s t u : Store} {out out' : String}

/-! ## Runs with enough room and depth -/

/-- from some limits on, `x` started in `s` ends with `r` in `t` and prints `out` -/
def Reaches (x : Nat → Nat → Run α) (s : Store) (r : Except Fault α) (t : Store) (out : String) : Prop :=
  ∃ limit, ∀ room depth, limit ≤ room → limit ≤ depth → ∀ (printed : String) (notes : Array Note), ∃ notes',
    x room depth ⟨s, printed, notes⟩ = (r, ⟨t, printed ++ out, notes'⟩)

/-- a step that needs no evaluation and prints nothing -/
theorem reaches_silent {x : Nat → Nat → Run α} {r : Except Fault α}
    (h : ∀ room depth printed notes, x room depth ⟨s, printed, notes⟩ = (r, ⟨t, printed, notes⟩)) :
    Reaches x s r t "" := by
  refine ⟨0, fun room depth _ _ printed notes => ⟨notes, ?_⟩⟩
  rw [h, String.append_empty]

theorem Reaches.bind {x : Nat → Nat → Run α} {next : Nat → Nat → α → Run β} {a : α} {r : Except Fault β}
    (h : Reaches x s (.ok a) t out) (hnext : Reaches (fun room depth => next room depth a) t r u out') :
    Reaches (fun room depth => x room depth >>= next room depth) s r u (out ++ out') := by
  obtain ⟨limit, hx⟩ := h
  obtain ⟨limit', hy⟩ := hnext
  refine ⟨max limit limit', fun room depth hroom hdepth printed notes => ?_⟩
  obtain ⟨notes₁, hx⟩ := hx room depth (le_of_max_le_left hroom) (le_of_max_le_left hdepth) printed notes
  obtain ⟨notes₂, hy⟩ := hy room depth (le_of_max_le_right hroom) (le_of_max_le_right hdepth) (printed ++ out) notes₁
  refine ⟨notes₂, (Effect.bind_ok hx _).trans ?_⟩
  rw [← String.append_assoc]
  exact hy

theorem Reaches.bind_error {x : Nat → Nat → Run α} {fault : Fault} (h : Reaches x s (.error fault) t out)
    (next : Nat → Nat → α → Run β) :
    Reaches (fun room depth => x room depth >>= next room depth) s (.error fault) t out := by
  obtain ⟨limit, hx⟩ := h
  refine ⟨limit, fun room depth hroom hdepth printed notes => ?_⟩
  obtain ⟨notes', hx⟩ := hx room depth hroom hdepth printed notes
  exact ⟨notes', Effect.bind_error hx _⟩

/-- a step that is followed by one that changes the store and prints nothing -/
theorem Reaches.bind_silent {x : Nat → Nat → Run α} {next : Nat → Nat → α → Run β} {a : α} {r : Except Fault β}
    (h : Reaches x s (.ok a) t out)
    (hnext : ∀ room depth printed notes, next room depth a ⟨t, printed, notes⟩ = (r, ⟨u, printed, notes⟩)) :
    Reaches (fun room depth => x room depth >>= next room depth) s r u out := by
  have hboth := h.bind (reaches_silent hnext)
  rwa [String.append_empty] at hboth

/-- a step that changes the store and prints nothing comes first -/
theorem Reaches.after {y : Run β} {next : Nat → Nat → β → Run α} {b : β} {r : Except Fault α}
    (hy : ∀ printed notes, y ⟨s, printed, notes⟩ = (.ok b, ⟨t, printed, notes⟩))
    (hnext : Reaches (fun room depth => next room depth b) t r u out) :
    Reaches (fun room depth => y >>= next room depth) s r u out := by
  have hfirst : Reaches (fun _ _ => y) s (.ok b) t "" := reaches_silent fun _ _ printed notes => hy printed notes
  have hboth := hfirst.bind hnext
  rwa [String.empty_append] at hboth

/-- what holds after every run holds after these -/
theorem Reaches.ends {x : Nat → Nat → Run α} {r : Except Fault α} (h : Reaches x s r t out) {ok : Store → α → Prop}
    (hends : ∀ room depth, Evaluator.EndsWell (x room depth) ⟨s, "", #[]⟩ ok) :
    s.Grown t ∧ ∀ a, r = .ok a → ok t a := by
  obtain ⟨limit, hx⟩ := h
  obtain ⟨notes, hx⟩ := hx limit limit le_rfl le_rfl "" #[]
  have hw := hends limit limit
  cases r with
  | ok a =>
    obtain ⟨hgrown, ha⟩ := hw.of_ok hx
    refine ⟨hgrown, fun b hb => ?_⟩
    cases hb
    exact ha
  | error fault =>
    refine ⟨(hw.of_error hx).1, fun _ h => ?_⟩
    cases h

/-- one level of evaluation needs one more level of depth -/
theorem Reaches.evaluate {d : Datum} {f : FrameId} {shape : Shape} {r : Except Fault Datum} (hd : d.HasShape shape)
    (h : Reaches (fun room depth => shape.perform room (Datum.evaluate room depth) f) s r t out) :
    Reaches (fun room depth => d.evaluate room depth f) s r t out := by
  obtain ⟨limit, hx⟩ := h
  refine ⟨limit + 1, fun room depth hroom hdepth printed notes => ?_⟩
  obtain ⟨depth, rfl⟩ : ∃ m, depth = m + 1 := ⟨depth - 1, by omega⟩
  obtain ⟨notes', hx⟩ := hx room depth (by omega) (by omega) printed (notes ++ d.entered.toArray)
  refine ⟨notes', ?_⟩
  dsimp only
  rw [Datum.evaluate_succ, Datum.evaluateWith_eq, Effect.bind_ok (Effect.noteAll_apply _ _), hd.shape_eq]
  exact hx

theorem reaches_builtin (b : Builtin) (args : List Datum) (s : Store) :
    Reaches (fun room _ => b.call room args) s (b.result args) s (b.output args) := by
  obtain ⟨limit, hlimit⟩ := Builtin.exists_showsWithin b args
  refine ⟨limit, fun room depth hroom _ printed notes => ⟨notes, ?_⟩⟩
  exact Builtin.call_of_showsWithin (Builtin.showsWithin_mono hroom hlimit) _

/-! ## Down a derivation -/

theorem holds_of_not_falsy {v : Datum} (h : ¬ Falsy v) : v.holds = true := by
  rw [falsy_iff, Bool.not_eq_false] at h
  exact h

theorem Reaches.grown {d : Datum} {f : FrameId} {r : Except Fault Datum}
    (h : Reaches (fun room depth => d.evaluate room depth f) s r t out) (hready : s.Ready f [d]) : s.Grown t :=
  (h.ends fun room depth => d.evaluate_wellFormed room depth f _ hready).1

mutual

/-- **Completeness.** A run with enough room and depth comes to what the semantics derives. -/
theorem evaluate_of_evaluates {s t : Store} {f : FrameId} {d : Datum} {r : Except Fault Datum} {out : String}
    (h : Evaluates s f d r t out) (hready : s.Ready f [d]) :
    Reaches (fun room depth => d.evaluate room depth f) s r t out := by
  match h with
  | .value hd => exact .evaluate hd (reaches_silent fun _ _ _ _ => rfl)
  | .name hd hx =>
    have hlookup := (sees_iff hready.wellFormed hready.frame_lt).1 hx
    refine .evaluate hd (reaches_silent fun _ _ printed notes => ?_)
    exact Run.lookup_ok (w := ⟨s, printed, notes⟩) hlookup
  | @Evaluates.unbound _ _ _ x hd hx =>
    have hlookup : s.lookup? f x = none := by
      cases hv : s.lookup? f x with
      | none => rfl
      | some v => exact absurd ((sees_iff hready.wellFormed hready.frame_lt).2 hv) (hx v)
    refine .evaluate hd (reaches_silent fun _ _ printed notes => ?_)
    exact Run.lookup_error (w := ⟨s, printed, notes⟩) hlookup
  | .malformed hd => exact .evaluate hd (reaches_silent fun _ _ _ _ => rfl)
  | .define hd hbody =>
    have ih := evaluate_of_evaluates hbody (hready.parts hd)
    exact .evaluate hd (ih.bind_silent fun _ _ _ _ => rfl)
  | .defineFault hd hbody =>
    have ih := evaluate_of_evaluates hbody (hready.parts hd)
    exact .evaluate hd (ih.bind_error _)
  | .consequent hd hcondition hv hbranch =>
    have hparts := hready.parts hd
    have ih := evaluate_of_evaluates hcondition hparts.head
    have ih' := evaluate_of_evaluates hbranch (hparts.tail.grown (ih.grown hparts.head)).head
    refine .evaluate hd (ih.bind ?_)
    simpa only [if_pos (holds_of_not_falsy hv)] using ih'
  | .alternative hd hcondition hv hbranch =>
    have hparts := hready.parts hd
    have ih := evaluate_of_evaluates hcondition hparts.head
    have ih' := evaluate_of_evaluates hbranch (hparts.tail.tail.grown (ih.grown hparts.head)).head
    refine .evaluate hd (ih.bind ?_)
    simpa only [falsy_iff.1 hv, Bool.false_eq_true, if_false] using ih'
  | .noAlternative hd hcondition hv =>
    have ih := evaluate_of_evaluates hcondition (hready.parts hd).head
    refine .evaluate hd (ih.bind_silent fun _ _ _ _ => ?_)
    simp only [falsy_iff.1 hv, Bool.false_eq_true, if_false]
    rfl
  | .conditionFault hd hcondition =>
    have ih := evaluate_of_evaluates hcondition (hready.parts hd).head
    exact .evaluate hd (ih.bind_error _)
  | .block hd hbindings hbody =>
    have hinner := (hready.parts hd).inner
    have ih := fill_of_fills hbindings hinner.tail
    have hgrown := (ih.ends fun room depth =>
      Evaluator.fill_endsWell (Datum.evaluate_wellFormed room depth) hinner.tail).1
    have ih' := evaluate_of_evaluates hbody (hinner.head.grown hgrown)
    exact .evaluate hd (.after (fun _ _ => rfl) (ih.bind ih'))
  | .blockFault hd hbindings =>
    have ih := fill_of_fills hbindings (hready.parts hd).inner.tail
    exact .evaluate hd (.after (fun _ _ => rfl) (ih.bind_error _))
  | .function hd => exact .evaluate hd (reaches_silent fun _ _ _ _ => rfl)
  | .callClosure hd hitems hbody =>
    have hparts := hready.parts hd
    have ih := each_of_evaluates hitems hparts
    obtain ⟨hgrown, hvalues⟩ := ih.ends fun room depth =>
      Evaluator.each_endsWell (Datum.evaluate_wellFormed room depth) hparts
    have hcall := Store.Ready.call hgrown.wellFormed (hvalues _ rfl)
    rw [← bound_eq] at hcall
    have ih' := body_of_evaluates hbody hcall
    refine .evaluate hd ?_
    simp only [perform_items]
    refine ih.bind ?_
    simp only [Evaluator.combine_closure, Evaluator.callClosure, ← bound_eq]
    exact .after (fun _ _ => rfl) ih'
  | .callBuiltin hd hitems =>
    have ih := each_of_evaluates hitems (hready.parts hd)
    refine .evaluate hd ?_
    simp only [perform_items]
    refine ih.bind ?_
    simp only [Evaluator.combine_builtin]
    exact reaches_builtin ..
  | .items hd hitems hv =>
    have ih := each_of_evaluates hitems (hready.parts hd)
    refine .evaluate hd ?_
    simp only [perform_items]
    refine ih.bind_silent fun _ _ _ _ => ?_
    rw [Evaluator.combine_data (notCallable_iff.1 hv)]
    rfl
  | .itemsFault hd hitems =>
    have ih := each_of_evaluates hitems (hready.parts hd)
    refine .evaluate hd ?_
    simp only [perform_items]
    exact ih.bind_error _

theorem each_of_evaluates {s t : Store} {f : FrameId} {ds : List Datum} {r : Except Fault (List Datum)} {out : String}
    (h : EvaluatesEach s f ds r t out) (hready : s.Ready f ds) :
    Reaches (fun room depth => (Datum.evaluate room depth).each f ds) s r t out := by
  match h with
  | .nil => exact reaches_silent fun _ _ _ _ => rfl
  | .cons hd hds =>
    have ih := evaluate_of_evaluates hd hready.head
    have ih' := each_of_evaluates hds (hready.tail.grown (ih.grown hready.head))
    exact ih.bind (ih'.bind_silent fun _ _ _ _ => rfl)
  | .headFault hd => exact (evaluate_of_evaluates hd hready.head).bind_error _
  | .tailFault hd hds =>
    have ih := evaluate_of_evaluates hd hready.head
    have ih' := each_of_evaluates hds (hready.tail.grown (ih.grown hready.head))
    exact ih.bind (ih'.bind_error _)

theorem body_of_evaluates {s t : Store} {f : FrameId} {last : Datum} {ds : List Datum} {r : Except Fault Datum}
    {out : String} (h : EvaluatesBody s f last ds r t out) (hready : s.Ready f ds) :
    Reaches (fun room depth => (Datum.evaluate room depth).sequence f last ds) s r t out := by
  match h with
  | .nil => exact reaches_silent fun _ _ _ _ => rfl
  | .cons hd hds =>
    have ih := evaluate_of_evaluates hd hready.head
    exact ih.bind (body_of_evaluates hds (hready.tail.grown (ih.grown hready.head)))
  | .fault hd => exact (evaluate_of_evaluates hd hready.head).bind_error _

theorem fill_of_fills {s t : Store} {f : FrameId} {bs : List Datum} {r : Except Fault Unit} {out : String}
    (h : Fills s f bs r t out) (hready : s.Ready f bs) :
    Reaches (fun room depth => (Datum.evaluate room depth).fill f bs) s r t out := by
  match h with
  | .nil => exact reaches_silent fun _ _ _ _ => rfl
  | @Fills.cons _ _ x body bs v t out r u out' hbody hbs =>
    have hbinding := hready.head.binding
    have ih := evaluate_of_evaluates hbody hbinding
    obtain ⟨hgrown, hv⟩ := ih.ends fun room depth => body.evaluate_wellFormed room depth f _ hbinding
    have hdefined := hgrown.trans (hgrown.wellFormed.grown_define f x (hv v rfl))
    have ih' := fill_of_fills hbs (hready.tail.grown hdefined)
    exact ih.bind (.after (fun _ _ => rfl) ih')
  | .fault hbody =>
    have ih := evaluate_of_evaluates hbody hready.head.binding
    exact ih.bind_error _
  | @Fills.malformed _ _ b bs hb =>
    have hnone : Evaluator.binding? b = none := by
      cases h : Evaluator.binding? b with
      | none => rfl
      | some pair => exact absurd (Evaluator.binding?_eq_some_iff.1 h) (hb pair.1 pair.2)
    refine reaches_silent fun _ _ _ _ => ?_
    unfold Evaluator.fill
    rw [hnone]
    rfl

end

/-! ## No limits -/

theorem shape_ne_tooDeep {d : Datum} {fault : Fault} (hd : d.HasShape (.malformed fault)) : fault ≠ .tooDeep := by
  rintro rfl
  cases hd

theorem result_ne_tooDeep (b : Builtin) (args : List Datum) : b.result args ≠ .error .tooDeep := by
  intro h
  rcases Builtin.ofBuiltin_of_result h with ⟨_, _, h⟩ | ⟨_, _, _, h⟩
  · cases h
  · cases h

mutual

/-- no rule of the semantics stops at a limit -/
theorem evaluates_ne_tooDeep {s t : Store} {f : FrameId} {d : Datum} {r : Except Fault Datum} {out : String}
    (h : Evaluates s f d r t out) : r ≠ .error .tooDeep := by
  match h with
  | .value _ | .name .. | .unbound .. | .define .. | .noAlternative .. | .function _ | .items .. => simp
  | .malformed hd => simpa using shape_ne_tooDeep hd
  | .defineFault _ hbody => exact evaluates_ne_tooDeep hbody
  | .consequent _ _ _ hbranch => exact evaluates_ne_tooDeep hbranch
  | .alternative _ _ _ hbranch => exact evaluates_ne_tooDeep hbranch
  | .conditionFault _ hcondition => exact evaluates_ne_tooDeep hcondition
  | .block _ _ hbody => exact evaluates_ne_tooDeep hbody
  | .blockFault _ hbindings => simpa using fills_ne_tooDeep hbindings
  | .callClosure _ _ hbody => exact body_ne_tooDeep hbody
  | .callBuiltin _ _ => exact result_ne_tooDeep _ _
  | .itemsFault _ hitems => simpa using each_ne_tooDeep hitems

theorem each_ne_tooDeep {s t : Store} {f : FrameId} {ds : List Datum} {r : Except Fault (List Datum)} {out : String}
    (h : EvaluatesEach s f ds r t out) : r ≠ .error .tooDeep := by
  match h with
  | .nil | .cons .. => simp
  | .headFault hd => simpa using evaluates_ne_tooDeep hd
  | .tailFault _ hds => exact each_ne_tooDeep hds

theorem body_ne_tooDeep {s t : Store} {f : FrameId} {last : Datum} {ds : List Datum} {r : Except Fault Datum}
    {out : String} (h : EvaluatesBody s f last ds r t out) : r ≠ .error .tooDeep := by
  match h with
  | .nil => simp
  | .cons _ hds => exact body_ne_tooDeep hds
  | .fault hd => exact evaluates_ne_tooDeep hd

theorem fills_ne_tooDeep {s t : Store} {f : FrameId} {bs : List Datum} {r : Except Fault Unit} {out : String}
    (h : Fills s f bs r t out) : r ≠ .error .tooDeep := by
  match h with
  | .nil | .malformed _ => simp
  | .cons _ hbs => exact fills_ne_tooDeep hbs
  | .fault hbody => simpa using evaluates_ne_tooDeep hbody

end

/-! ## Main statement -/

/-- **The evaluator implements the natural semantics.** In a reachable store, whatever a run comes to, if it does not
stop at a limit, is derived, with the store that it leaves and the text that it prints; whatever is derived is what
runs come to, all those with enough room and depth; and there is one derived result at most. -/
theorem evaluator_implements_semantics (hs : s.Reachable) {f : FrameId} (hf : f < s.size) {d : Datum}
    (hd : d.Within s.size) :
    (∀ room depth printed notes r w', d.evaluate room depth f ⟨s, printed, notes⟩ = (r, w') → r ≠ .error .tooDeep →
      ∃ out, Evaluates s f d r w'.store out ∧ w'.printed = printed ++ out) ∧
    (∀ r t out, Evaluates s f d r t out → r ≠ .error .tooDeep ∧
      ∃ limit, ∀ room depth, limit ≤ room → limit ≤ depth → ∀ printed notes, ∃ notes',
        d.evaluate room depth f ⟨s, printed, notes⟩ = (r, ⟨t, printed ++ out, notes'⟩)) ∧
    ∀ r t out r' t' out', Evaluates s f d r t out → Evaluates s f d r' t' out' → r = r' ∧ t = t' ∧ out = out' := by
  have hready : s.Ready f [d] := ⟨hs.wellFormed, hf, by simpa using hd⟩
  refine ⟨?_, ?_, ?_⟩
  · intro room depth printed notes r w' hr hne
    have hsound : Derives (d.evaluate room depth f) ⟨s, printed, notes⟩ (Evaluates s f d) :=
      evaluates_of_evaluate room depth hready
    exact hsound r w' hr hne
  · intro r t out h
    exact ⟨evaluates_ne_tooDeep h, evaluate_of_evaluates h hready⟩
  · intro r t out r' t' out' h h'
    obtain ⟨limit, hrun⟩ := evaluate_of_evaluates h hready
    obtain ⟨limit', hrun'⟩ := evaluate_of_evaluates h' hready
    -- both results are those of one run with room and depth enough for both
    have hroom := le_max_left limit limit'
    have hroom' := le_max_right limit limit'
    obtain ⟨notes, hrun⟩ := hrun _ _ hroom hroom "" #[]
    obtain ⟨notes', hrun'⟩ := hrun' _ _ hroom' hroom' "" #[]
    have heq := hrun.symm.trans hrun'
    simp only [String.empty_append, Prod.mk.injEq, World.mk.injEq] at heq
    exact ⟨heq.1, heq.2.1, heq.2.2.1⟩

/-- a let form whose value is a closure: a frame is made and filled, and the closure captures it -/
theorem evaluates_let_of_function :
    let s := Store.empty.push Builtin.bindings none
    let body := Datum.ofForm .function [.list [identifier "y"], identifier "x"]
    let d := Datum.ofForm .block [.list [.list [identifier "x", .atom (.string "a")]], body]
    s.Reachable ∧ 0 < s.size ∧ d.Within s.size ∧ ∃ out, Evaluates s 0 d (.ok (.closure ["y"] [identifier "x"] 1))
      ((s.push [] (some 0)).define 1 "x" (.text "a")) out := by
  intro s body d
  have hs : s.Reachable := Store.Reachable.empty.newRoot
  have hsize : 0 < s.size := by decide
  have hd : d.Within s.size := by
    simp [d, body, Datum.Within, Datum.ofForm, Datum.identifier, Datum.allClosures_list]
  obtain ⟨out, hout, -⟩ := (evaluator_implements_semantics hs hsize hd).1 0 2 "" #[] _ _ rfl (by simp)
  exact ⟨hs, hsize, hd, out, hout⟩

end FrameLisp.Semantics
