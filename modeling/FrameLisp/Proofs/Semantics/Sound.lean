/-
What the program evaluates, the natural semantics derives.

A run that ends with anything but `Fault.tooDeep` has a derivation with the same result, the same store and the same
printed text (`evaluates_of_evaluate`). The proof is by the depth that is left: one level of evaluation is one rule of
the semantics, whose premises are the runs with one level less.
-/
import FrameLisp.Proofs.Semantics.Natural

namespace FrameLisp

/-! ## Runs and derivations -/

namespace Semantics

variable {α β : Type} {w : World}

/-- what `x` does from `w` on is right by `rel`, unless it stops at a limit -/
def Derives (x : Run α) (w : World) (rel : Except Fault α → Store → String → Prop) : Prop :=
  ∀ r w', x w = (r, w') → r ≠ .error .tooDeep → ∃ out, rel r w'.store out ∧ w'.printed = w.printed ++ out

theorem derives_silent {x : Run α} {rel : Except Fault α → Store → String → Prop} {r : Except Fault α} {w' : World}
    (hx : x w = (r, w')) (hprinted : w'.printed = w.printed) (h : rel r w'.store "") : Derives x w rel := by
  intro r' w'' hr _
  rw [hx] at hr
  cases hr
  exact ⟨"", h, by rw [hprinted, String.append_empty]⟩

theorem derives_pure {rel : Except Fault α → Store → String → Prop} {a : α} (h : rel (.ok a) w.store "") :
    Derives (pure a) w rel :=
  derives_silent rfl rfl h

/-- a step and what follows it, which goes on printing after `out` -/
theorem Derives.bind {x : Run α} {next : α → Run β} {rel₁ : Except Fault α → Store → String → Prop}
    {rel : Except Fault β → Store → String → Prop} (h : Derives x w rel₁)
    (hok : ∀ a w' out, x w = (.ok a, w') → rel₁ (.ok a) w'.store out →
      Derives (next a) w' fun r u out' => rel r u (out ++ out'))
    (herror : ∀ fault t out, rel₁ (.error fault) t out → rel (.error fault) t out) : Derives (x >>= next) w rel := by
  intro r w' hr hne
  rw [Effect.bind_apply] at hr
  cases hx : x w with
  | mk r₁ w₁ =>
    rw [hx] at hr
    cases r₁ with
    | ok a =>
      obtain ⟨out, ha, hprinted⟩ := h _ _ hx (by simp)
      obtain ⟨out', hb, hprinted'⟩ := hok a w₁ out hx ha r w' hr hne
      refine ⟨out ++ out', hb, ?_⟩
      rw [hprinted', hprinted, String.append_assoc]
    | error fault =>
      cases hr
      have hne' : (Except.error fault : Except Fault α) ≠ .error .tooDeep := by
        intro heq
        cases heq
        exact hne rfl
      obtain ⟨out, ha, hprinted⟩ := h _ _ hx hne'
      exact ⟨out, herror _ _ _ ha, hprinted⟩

/-- binding a name comes after a step and prints nothing -/
theorem derives_define {rel : Except Fault α → Store → String → Prop} {f : FrameId} {x : String} {v : Datum}
    {next : Unit → Run α}
    (h : Derives (next ()) { w with store := w.store.define f x v } rel) :
    Derives (Effect.define f x v >>= next) w rel := by
  intro r w' hr hne
  rw [Effect.bind_ok (Effect.define_apply ..)] at hr
  exact h r w' hr hne

theorem derives_newFrame {rel : Except Fault α → Store → String → Prop} {bindings : Bindings} {outer : Option FrameId}
    {next : FrameId → Run α}
    (h : Derives (next w.store.size) { w with store := w.store.push bindings outer } rel) :
    Derives (Effect.newFrame bindings outer >>= next) w rel := by
  intro r w' hr hne
  rw [Effect.bind_ok (Effect.newFrame_apply ..)] at hr
  exact h r w' hr hne

/-! ## One level of evaluation -/

section

variable {room depth : Nat} (hev : ∀ d g w, w.store.Ready g [d] →
  Derives (d.evaluate room depth g) w (Evaluates w.store g d))

include hev

theorem each_derives {f : FrameId} {ds : List Datum} (h : w.store.Ready f ds) :
    Derives ((Datum.evaluate room depth).each f ds) w (EvaluatesEach w.store f ds) := by
  induction ds generalizing w with
  | nil => exact derives_pure .nil
  | cons d ds ih =>
    refine (hev d f w h.head).bind (fun v w₁ out hx hv => ?_) fun fault t out hfault => .headFault hfault
    have hgrown := ((d.evaluate_wellFormed room depth f w h.head).of_ok hx).1
    refine (ih (h.tail.grown hgrown)).bind (fun values w₂ out' _ hvalues => ?_) fun fault t out' hfault => ?_
    · refine derives_pure ?_
      rw [String.append_empty]
      exact .cons hv hvalues
    · exact .tailFault hv hfault

theorem body_derives {f : FrameId} {ds : List Datum} (h : w.store.Ready f ds) (last : Datum) :
    Derives ((Datum.evaluate room depth).sequence f last ds) w (EvaluatesBody w.store f last ds) := by
  induction ds generalizing w last with
  | nil => exact derives_pure .nil
  | cons d ds ih =>
    refine (hev d f w h.head).bind (fun v w₁ out hx hv r w' hr hne => ?_) fun fault t out hfault => .fault hfault
    have hgrown := ((d.evaluate_wellFormed room depth f w h.head).of_ok hx).1
    obtain ⟨out', hds, hprinted⟩ := ih (h.tail.grown hgrown) v r w' hr hne
    exact ⟨out', .cons hv hds, hprinted⟩

theorem fill_derives {f : FrameId} {bs : List Datum} (h : w.store.Ready f bs) :
    Derives ((Datum.evaluate room depth).fill f bs) w (Fills w.store f bs) := by
  induction bs generalizing w with
  | nil => exact derives_pure .nil
  | cons b bs ih =>
    unfold Evaluator.fill
    split
    · next hnone =>
      refine derives_silent rfl rfl (.malformed fun x body hb => ?_)
      rw [Evaluator.binding?_eq_some_iff.2 hb] at hnone
      cases hnone
    · next x body hb =>
      rw [Evaluator.binding?_eq_some_iff] at hb
      subst hb
      have hready := h.head.binding
      refine (hev body f w hready).bind (fun v w₁ out hx hv => ?_) fun fault t out hfault => .fault hfault
      obtain ⟨hgrown, hvalue⟩ := (body.evaluate_wellFormed room depth f w hready).of_ok hx
      have hdefined := hgrown.trans (hgrown.wellFormed.grown_define f x hvalue)
      refine derives_define fun r w' hr hne => ?_
      obtain ⟨out', hbs, hprinted⟩ := ih (h.tail.grown hdefined) r w' hr hne
      exact ⟨out', .cons hv hbs, hprinted⟩

/-- a call of a function, or a list as data, once the items are evaluated -/
theorem combine_derives {s : Store} {f : FrameId} {d head v : Datum} {args values : List Datum} {out : String}
    (hd : d.HasShape (.items head args))
    (hitems : EvaluatesEach s f (head :: args) (.ok (v :: values)) w.store out) (hw : w.store.WellFormed)
    (hwithin : ∀ u ∈ v :: values, u.Within w.store.size) :
    Derives ((Datum.evaluate room depth).combine room (v :: values)) w
      fun r u out' => Evaluates s f d r u (out ++ out') := by
  have hdata : v.isFunction = false → Derives (pure (.list (v :: values))) w
      fun r u out' => Evaluates s f d r u (out ++ out') := by
    intro hv
    refine derives_pure ?_
    rw [String.append_empty]
    exact .items hd hitems (notCallable_iff.2 hv)
  cases v with
  | closure params body captured =>
    refine derives_newFrame fun r w' hr hne => ?_
    have hready := Store.Ready.call hw hwithin
    rw [← bound_eq] at hready hr
    obtain ⟨out', hbody, hprinted⟩ := body_derives hev
      (w := ⟨w.store.push (bound params values) (some captured), w.printed, w.notes⟩) hready .absent r w' hr hne
    exact ⟨out', .callClosure hd hitems hbody, hprinted⟩
  | builtin b =>
    intro r w' hr hne
    have hcall : b.call room values w = (r, w') := hr
    unfold Builtin.call at hcall
    split at hcall
    · cases hcall
      exact ⟨b.output values, .callBuiltin hd hitems, rfl⟩
    · cases hcall
      exact absurd rfl hne
  | atom | list | absent | number | text => exact hdata rfl

theorem perform_derives {f : FrameId} {d : Datum} (h : w.store.Ready f [d]) :
    Derives (d.shape.perform room (Datum.evaluate room depth) f) w (Evaluates w.store f d) := by
  have hd := d.hasShape_shape
  have hparts := h.parts hd
  generalize d.shape = shape at hd hparts
  cases shape with
  | value v => exact derives_pure (.value hd)
  | name x =>
    rw [Shape.perform]
    cases hx : w.store.lookup? f x with
    | some v =>
      refine derives_silent (Run.lookup_ok hx) rfl ?_
      exact .name hd ((sees_iff h.wellFormed h.frame_lt).2 hx)
    | none =>
      refine derives_silent (Run.lookup_error hx) rfl (.unbound hd fun v hv => ?_)
      rw [(sees_iff h.wellFormed h.frame_lt).1 hv] at hx
      cases hx
  | items head args =>
    rw [perform_items]
    refine (each_derives hev hparts).bind (fun values w₁ out hx hvalues => ?_) fun fault t out hfault => ?_
    · have hwell := Evaluator.each_endsWell (Datum.evaluate_wellFormed room depth) hparts
      obtain ⟨hgrown, hwithin⟩ := hwell.of_ok hx
      cases values with
      | nil => cases hvalues
      | cons v values => exact combine_derives hev hd hvalues hgrown.wellFormed hwithin
    · exact .itemsFault hd hfault
  | define x body =>
    have hbody : w.store.Ready f [body] := hparts
    refine (hev body f w hbody).bind (fun v w₁ out _ hv => ?_) fun fault t out hfault => .defineFault hd hfault
    refine derives_define (derives_pure ?_)
    rw [String.append_empty]
    exact .define hd hv
  | conditional condition consequent alternative =>
    refine (hev condition f w hparts.head).bind (fun v w₁ out hx hv => ?_)
      fun fault t out hfault => .conditionFault hd hfault
    have hgrown := ((condition.evaluate_wellFormed room depth f w hparts.head).of_ok hx).1
    have hrest := hparts.tail.grown hgrown
    split
    · next hholds =>
      have hfalsy : ¬ Falsy v := by
        rw [falsy_iff, hholds]
        simp
      intro r w' hr hne
      obtain ⟨out', hbranch, hprinted⟩ := hev consequent f w₁ hrest.head r w' hr hne
      exact ⟨out', .consequent hd hv hfalsy hbranch, hprinted⟩
    · next hholds =>
      have hfalsy : Falsy v := falsy_iff.2 (Bool.eq_false_iff.2 hholds)
      cases alternative with
      | none =>
        refine derives_pure ?_
        rw [String.append_empty]
        exact .noAlternative hd hv hfalsy
      | some alternative =>
        intro r w' hr hne
        obtain ⟨out', hbranch, hprinted⟩ := hev alternative f w₁ hrest.tail.head r w' hr hne
        exact ⟨out', .alternative hd hv hfalsy hbranch, hprinted⟩
  | block bindings body =>
    have hinner := hparts.inner
    refine derives_newFrame ?_
    refine (fill_derives hev (w := ⟨w.store.push [] (some f), w.printed, w.notes⟩) hinner.tail).bind
      (fun _ w₁ out hx hfills => ?_) fun fault t out hfault => .blockFault hd hfault
    have hwell := Evaluator.fill_endsWell (w := ⟨w.store.push [] (some f), w.printed, w.notes⟩)
      (Datum.evaluate_wellFormed room depth) hinner.tail
    have hgrown := (hwell.of_ok hx).1
    intro r w' hr hne
    obtain ⟨out', hbody, hprinted⟩ := hev body w.store.size w₁ (hinner.head.grown hgrown) r w' hr hne
    exact ⟨out', .block hd hfills hbody, hprinted⟩
  | function params body => exact derives_pure (.function hd)
  | malformed fault => exact derives_silent rfl rfl (.malformed hd)

end

/-- **Soundness.** What a run comes to has a derivation, unless it stops at a limit. -/
theorem evaluates_of_evaluate (room depth : Nat) {d : Datum} {f : FrameId} (h : w.store.Ready f [d]) :
    Derives (d.evaluate room depth f) w (Evaluates w.store f d) := by
  induction depth generalizing d f w with
  | zero =>
    intro r w' hr hne
    cases hr
    exact absurd rfl hne
  | succ depth ih =>
    rw [Datum.evaluate_succ, Datum.evaluateWith_eq]
    intro r w' hr hne
    rw [Effect.bind_ok (Effect.noteAll_apply _ _)] at hr
    have hperform : Derives (d.shape.perform room (Datum.evaluate room depth) f)
        ⟨w.store, w.printed, w.notes ++ d.entered.toArray⟩ (Evaluates w.store f d) :=
      perform_derives (fun d g w hw => ih hw) h
    exact hperform r w' hr hne

end Semantics

end FrameLisp
