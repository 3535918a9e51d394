/-
Code that makes no functions leaves a frame sealed.

A datum declares something when one of the forms in it that evaluation gets to defines a name or makes a function
(`Datum.Declares`). Evaluated in a sealed frame, or in one inside it, a datum that does not declare anything gives a
value that lies outside and leaves the frame sealed; so does any code that runs outside, such as the bodies of the
functions that it calls (`Datum.evaluate_sealed`).
-/
import FrameLisp.Proofs.Evaluation.Reachable
import FrameLisp.Proofs.Store.Sealed

namespace FrameLisp

/-! ## Declarations -/

namespace Datum

/-- a form that evaluation gets to defines a name or makes a function -/
inductive Declares : Datum → Prop
  | define {d body : Datum} {x : String} (hd : d.HasShape (.define x body)) : Declares d
  | function {d : Datum} {params : List String} {body : List Datum} (hd : d.HasShape (.function params body)) :
    Declares d
  | item {d head e : Datum} {args : List Datum} (hd : d.HasShape (.items head args)) (he : e ∈ head :: args)
    (h : Declares e) : Declares d
  | branch {d condition consequent e : Datum} {alternative : Option Datum}
    (hd : d.HasShape (.conditional condition consequent alternative))
    (he : e ∈ condition :: consequent :: alternative.toList) (h : Declares e) : Declares d
  | binding {d body e : Datum} {bindings : List Datum} {x : String} (hd : d.HasShape (.block bindings body))
    (he : .list [identifier x, e] ∈ bindings) (h : Declares e) : Declares d
  | body {d body : Datum} {bindings : List Datum} (hd : d.HasShape (.block bindings body)) (h : Declares body) :
    Declares d

theorem not_declares_atom (a : Atom) : ¬ (Datum.atom a).Declares := by
  intro h
  cases h with
  | define hd => cases hd
  | function hd => cases hd
  | item hd => cases hd
  | branch hd => cases hd
  | binding hd => cases hd
  | body hd => cases hd

/-- a list of items declares something where an item does -/
theorem declares_items {d head : Datum} {args : List Datum} (hd : d.HasShape (.items head args)) :
    d.Declares ↔ ∃ e ∈ head :: args, e.Declares := by
  refine ⟨fun h => ?_, fun ⟨e, he, h⟩ => .item hd he h⟩
  have hshape := hd.shape_eq
  cases h with
  | item hd' he h =>
    rw [hd'.shape_eq] at hshape
    cases hshape
    exact ⟨_, he, h⟩
  | define hd' | function hd' | branch hd' | binding hd' | body hd' =>
    rw [hd'.shape_eq] at hshape
    cases hshape

/-- what defines a name in its own frame declares something -/
theorem Defines.declares {d : Datum} {x : String} (h : d.Defines x) : d.Declares := by
  induction h with
  | target hd => exact .define hd
  | @part d e s x hd hs he _ ih =>
    cases s with
    | items head args => exact .item hd he ih
    | conditional condition consequent alternative => exact .branch hd he ih
    | define y body => exact .define hd
    | value | name | malformed => cases he
    | block | function => cases hs

end Datum

/-! ## Sealed frames as evaluation goes on -/

namespace Store

/-- `t` is a later store, and `c` is sealed in it -/
structure StaysSealed (c : FrameId) (s t : Store) : Prop where
  later : s.Extends t
  isSealed : t.Sealed c

/-- data that may be evaluated in the frame `f` while `c` is sealed: inside `c` they declare nothing -/
structure Guards (s : Store) (c f : FrameId) (ds : List Datum) : Prop where
  isSealed : s.Sealed c
  frame_lt : f < s.size
  outside : ∀ d ∈ ds, d.Outside s c
  quiet : c ∈ s.chain f → ∀ d ∈ ds, ¬ d.Declares

variable {s t u : Store} {c f : FrameId} {d : Datum} {ds : List Datum}

theorem Sealed.stays (h : s.Sealed c) : s.StaysSealed c s := ⟨Extends.refl s, h⟩

theorem StaysSealed.trans (h : s.StaysSealed c t) (h' : t.StaysSealed c u) : s.StaysSealed c u :=
  ⟨h.later.trans h'.later, h'.isSealed⟩

namespace Guards

theorem wellFormed (h : s.Guards c f ds) : s.WellFormed := h.isSealed.wellFormed

theorem later (h : s.Guards c f ds) (hst : s.StaysSealed c t) : t.Guards c f ds := by
  have houtside : ∀ d ∈ ds, d.Outside t c := fun d hd => (h.outside d hd).later hst.later h.wellFormed
  refine ⟨hst.isSealed, h.frame_lt.trans_le hst.later.size_le, houtside, ?_⟩
  rw [chain_of_extends hst.later h.wellFormed h.frame_lt]
  exact h.quiet

theorem subset {es : List Datum} (h : s.Guards c f ds) (hsub : ∀ e ∈ es, e ∈ ds) : s.Guards c f es :=
  ⟨h.isSealed, h.frame_lt, fun e he => h.outside e (hsub e he), fun hin e he => h.quiet hin e (hsub e he)⟩

theorem head (h : s.Guards c f (d :: ds)) : s.Guards c f [d] := h.subset (by simp)

theorem tail (h : s.Guards c f (d :: ds)) : s.Guards c f ds := h.subset (by simp +contextual)

/-- parts that declare something only if the datum does -/
theorem parts (h : s.Guards c f [d]) {es : List Datum} (hes : ∀ e ∈ es, e ∈ d.shape.parts)
    (hdeclares : ∀ e ∈ es, e.Declares → d.Declares) : s.Guards c f es := by
  refine ⟨h.isSealed, h.frame_lt, fun e he => ?_, fun hin e he hd => ?_⟩
  · exact Datum.AllClosures.part (h.outside d (by simp)) (hes e he)
  · exact h.quiet hin d (by simp) (hdeclares e he hd)

/-- evaluation goes on in a new frame inside the one at hand -/
theorem inner (h : s.Guards c f ds) : (s.push [] (some f)).Guards c s.size ds := by
  have hext := extends_push s [] (some f)
  have hnone : ∀ pair ∈ ([] : List (String × Datum)), pair.2.Outside s c := by simp
  have hsealed : (s.push [] (some f)).Sealed c := h.isSealed.push hnone h.frame_lt
  refine ⟨hsealed, by simp, fun d hd => (h.outside d hd).later hext h.wellFormed, ?_⟩
  rw [mem_chain_push h.wellFormed h.frame_lt h.isSealed.lt]
  exact h.quiet

/-- a call goes on outside `c` -/
theorem call {params : List String} {body : List Datum} {captured : FrameId} {args : List Datum} (h : s.Sealed c)
    (hvalues : ∀ v ∈ Datum.closure params body captured :: args, v.Outside s c) :
    (s.push (Bindings.ofPairs (Bindings.ofParams params args)) (some captured)).Guards c s.size body := by
  rw [List.forall_mem_cons] at hvalues
  obtain ⟨⟨hcaptured, hout⟩, hbody⟩ := Datum.allClosures_closure.1 hvalues.1
  have hpairs := Bindings.all_ofParams Datum.allClosures_absent hvalues.2 params
  have hext := extends_push s (Bindings.ofPairs (Bindings.ofParams params args)) (some captured)
  refine ⟨h.push hpairs hcaptured, by simp, fun d hd => Datum.Outside.later (hbody d hd) hext h.wellFormed, ?_⟩
  rw [mem_chain_push h.wellFormed hcaptured h.lt]
  exact fun hin => absurd hin hout

end Guards

end Store

/-! ## One level of evaluation -/

namespace Evaluator

variable {α β : Type} {c : FrameId} {w : World}

/-- `x` ends in a later store in which `c` is sealed, where its result meets `ok` -/
abbrev LeavesSealed (c : FrameId) (x : Run α) (w : World) (ok : Store → α → Prop) : Prop :=
  x.EndsIn (Store.StaysSealed c) (fun _ => True) w ok

theorem LeavesSealed.bind {x : Run α} {next : α → Run β} {ok : Store → α → Prop} {done : Store → β → Prop}
    (h : LeavesSealed c x w ok)
    (hnext : ∀ a w', w.store.StaysSealed c w'.store → ok w'.store a → LeavesSealed c (next a) w' done) :
    LeavesSealed c (x >>= next) w done :=
  Effect.EndsIn.bind h hnext fun _ _ _ => Store.StaysSealed.trans

theorem leavesSealed_pure (h : w.store.Sealed c) {ok : Store → α → Prop} {a : α} (ha : ok w.store a) :
    LeavesSealed c (pure a) w ok :=
  Effect.endsIn_ok rfl h.stays ha

theorem leavesSealed_fail (h : w.store.Sealed c) (fault : Fault) (ok : Store → α → Prop) :
    LeavesSealed c (Effect.fail fault) w ok :=
  Effect.endsIn_error rfl h.stays trivial

theorem leavesSealed_define (h : w.store.Sealed c) (f : FrameId) (x : String) {v : Datum}
    (hv : v.Outside w.store c) : LeavesSealed c (Effect.define f x v) w fun _ _ => True :=
  Effect.endsIn_ok rfl ⟨(Store.changesOnly_define w.store f x v).extends, h.define f x hv⟩ trivial

variable {ev : Evaluator}
  (hev : ∀ d f w, w.store.Guards c f [d] → LeavesSealed c (ev d f) w fun s v => v.Outside s c)

include hev

theorem each_sealed {f : FrameId} {ds : List Datum} (h : w.store.Guards c f ds) :
    LeavesSealed c (ev.each f ds) w fun s vs => ∀ v ∈ vs, v.Outside s c := by
  induction ds generalizing w with
  | nil => exact leavesSealed_pure h.isSealed (by simp)
  | cons d ds ih =>
    refine (hev d f w h.head).bind ?_
    intro v w₁ h₁ hv
    refine (ih (h.tail.later h₁)).bind ?_
    intro vs w₂ h₂ hvs
    have hv₂ := hv.later h₂.later h₁.isSealed.wellFormed
    exact leavesSealed_pure h₂.isSealed (List.forall_mem_cons.2 ⟨hv₂, hvs⟩)

theorem sequence_sealed {f : FrameId} {ds : List Datum} (h : w.store.Guards c f ds) {last : Datum}
    (hlast : last.Outside w.store c) : LeavesSealed c (ev.sequence f last ds) w fun s v => v.Outside s c := by
  induction ds generalizing w last with
  | nil => exact leavesSealed_pure h.isSealed hlast
  | cons d ds ih =>
    refine (hev d f w h.head).bind ?_
    intro v w₁ h₁ hv
    exact ih (h.tail.later h₁) hv

theorem fill_sealed {f : FrameId} {bindings : List Datum} (h : w.store.Guards c f []) 
    (houtside : ∀ b ∈ bindings, b.Outside w.store c)
    (hquiet : c ∈ w.store.chain f → ∀ x e, Datum.list [.identifier x, e] ∈ bindings → ¬ e.Declares) :
    LeavesSealed c (ev.fill f bindings) w fun _ _ => True := by
  induction bindings generalizing w with
  | nil => exact leavesSealed_pure h.isSealed trivial
  | cons b bindings ih =>
    rw [List.forall_mem_cons] at houtside
    unfold Evaluator.fill
    split
    · exact leavesSealed_fail h.isSealed _ _
    · next x e hb =>
      rw [binding?_eq_some_iff] at hb
      have hlist := hb ▸ houtside.1
      have he : w.store.Guards c f [e] := by
        refine ⟨h.isSealed, h.frame_lt, fun d hd => ?_, fun hin d hd => ?_⟩
        · rw [List.mem_singleton.1 hd]
          exact Datum.allClosures_list.1 hlist e (by simp)
        · rw [List.mem_singleton.1 hd]
          exact hquiet hin x e (hb ▸ List.mem_cons_self)
      refine (hev e f w he).bind ?_
      intro v w₁ h₁ hv
      refine (leavesSealed_define h₁.isSealed f x hv).bind ?_
      intro _ w₂ h₂ _
      have h₁₂ := h₁.trans h₂
      refine ih (h.later h₁₂) (fun b hb => (houtside.2 b hb).later h₁₂.later h.wellFormed) ?_
      rw [Store.chain_of_extends h₁₂.later h.wellFormed h.frame_lt]
      exact fun hin y e he => hquiet hin y e (List.mem_cons_of_mem _ he)

theorem call_sealed (room : Nat) (h : w.store.Sealed c) {function : Datum} {args : List Datum}
    (hvalues : ∀ v ∈ function :: args, v.Outside w.store c) :
    LeavesSealed c (ev.call room function args) w fun s v => v.Outside s c := by
  unfold Evaluator.call
  split
  · next params body captured =>
    have hguards := Store.Guards.call h hvalues
    have hstays : w.store.StaysSealed c (w.store.push _ (some captured)) :=
      ⟨Store.extends_push w.store _ _, hguards.isSealed⟩
    have hnew : LeavesSealed c (Effect.newFrame (Bindings.ofPairs (Bindings.ofParams params args)) (some captured)) w
        fun s inner => s.Guards c inner body :=
      Effect.endsIn_ok rfl hstays hguards
    refine hnew.bind ?_
    intro inner w₁ h₁ hinner
    exact sequence_sealed hev hinner Datum.allClosures_absent
  · next b =>
    rw [List.forall_mem_cons] at hvalues
    refine Builtin.call_endsIn h.stays (fun v hv => ?_) (fun _ _ => trivial) trivial
    exact Datum.allClosures_result hvalues.2 hv
  · exact leavesSealed_fail h _ _

theorem perform_sealed (room : Nat) {f : FrameId} {d : Datum} (h : w.store.Guards c f [d]) :
    LeavesSealed c (d.shape.perform room ev f) w fun s v => v.Outside s c := by
  have hd := d.hasShape_shape
  have hself : d.Outside w.store c := h.outside d (by simp)
  cases hs : d.shape with
  | value v => exact leavesSealed_pure h.isSealed (Datum.AllClosures.of_value hself hs)
  | name x =>
    rw [Shape.perform]
    refine Run.lookup_ends (fun v hv => ⟨h.isSealed.stays, ?_⟩) ⟨h.isSealed.stays, trivial⟩
    exact h.isSealed.outside.lookup hv
  | items head args =>
    rw [hs] at hd
    have hparts : w.store.Guards c f (head :: args) :=
      h.parts (by simp [hs, Shape.parts]) fun e he => .item hd he
    rw [perform_items]
    refine (each_sealed hev hparts).bind ?_
    intro values w₁ h₁ hvalues
    cases values with
    | nil => exact leavesSealed_pure h₁.isSealed (Datum.allClosures_list.2 hvalues)
    | cons function values =>
      rw [Evaluator.combine]
      split
      · exact call_sealed hev room h₁.isSealed hvalues
      · exact leavesSealed_pure h₁.isSealed (Datum.allClosures_list.2 hvalues)
  | define x body =>
    rw [hs] at hd
    have hparts : w.store.Guards c f [body] := h.parts (by simp [hs, Shape.parts]) fun _ _ _ => .define hd
    refine (hev body f w hparts).bind ?_
    intro v w₁ h₁ hv
    refine (leavesSealed_define h₁.isSealed f x hv).bind ?_
    intro _ w₂ h₂ _
    exact leavesSealed_pure h₂.isSealed (hv.later h₂.later h₁.isSealed.wellFormed)
  | conditional condition consequent alternative =>
    rw [hs] at hd
    have hparts : w.store.Guards c f (condition :: consequent :: alternative.toList) :=
      h.parts (by simp [hs, Shape.parts]) fun e he => .branch hd he
    refine (hev condition f w hparts.head).bind ?_
    intro v w₁ h₁ _
    have hrest := hparts.tail.later h₁
    split
    · exact hev consequent f w₁ hrest.head
    · cases alternative with
      | none => exact leavesSealed_pure h₁.isSealed Datum.allClosures_absent
      | some alternative => exact hev alternative f w₁ hrest.tail.head
  | block bindings body =>
    rw [hs] at hd
    have hbody : w.store.Guards c f [body] := by
      refine h.parts (by simp [hs, Shape.parts]) fun e he hdeclares => .body hd ?_
      rwa [← List.mem_singleton.1 he]
    have hbindings : ∀ b ∈ bindings, b.Outside w.store c := fun b hb =>
      Datum.AllClosures.part hself (by simp [hs, Shape.parts, hb])
    have hquiet : c ∈ w.store.chain f → ∀ x e, Datum.list [.identifier x, e] ∈ bindings → ¬ e.Declares :=
      fun hin x e he hdeclares => h.quiet hin d (by simp) (.binding hd he hdeclares)
    have hinner := hbody.inner
    have hext := Store.extends_push w.store [] (some f)
    have hnew : LeavesSealed c (Effect.newFrame [] (some f)) w fun s inner =>
        inner = w.store.size ∧ s = w.store.push [] (some f) :=
      Effect.endsIn_ok rfl ⟨hext, hinner.isSealed⟩ ⟨rfl, rfl⟩
    refine hnew.bind ?_
    rintro _ w₁ h₁ ⟨rfl, hw₁⟩
    rw [← hw₁] at hinner hext
    refine (fill_sealed hev (hinner.subset (by simp)) (fun b hb => (hbindings b hb).later hext h.wellFormed) ?_).bind ?_
    · rw [hw₁, Store.mem_chain_push h.wellFormed h.frame_lt h.isSealed.lt]
      exact hquiet
    · intro _ w₂ h₂ _
      exact hev body w.store.size w₂ (hinner.later h₂)
  | function params body =>
    rw [hs] at hd
    have hout : c ∉ w.store.chain f := fun hin => h.quiet hin d (by simp) (.function hd)
    have hbody : ∀ e ∈ body, e.Outside w.store c := fun e he =>
      Datum.AllClosures.part hself (by simp [hs, Shape.parts, he])
    exact leavesSealed_pure h.isSealed (Datum.allClosures_closure.2 ⟨⟨h.frame_lt, hout⟩, hbody⟩)
  | malformed fault => exact leavesSealed_fail h.isSealed _ _

end Evaluator

/-- **Sealed frames stay sealed**, and the value of a datum lies outside -/
theorem Datum.evaluate_sealed {c : FrameId} (room depth : Nat) (d : Datum) (f : FrameId) (w : World)
    (h : w.store.Guards c f [d]) :
    Evaluator.LeavesSealed c (d.evaluate room depth f) w fun s v => v.Outside s c := by
  induction depth generalizing d f w with
  | zero => exact Evaluator.leavesSealed_fail h.isSealed _ _
  | succ depth ih =>
    rw [evaluate_succ, evaluateWith_eq]
    refine Evaluator.LeavesSealed.bind (Effect.endsIn_noteAll h.isSealed.stays _) ?_
    intro _ w₁ h₁ _
    exact Evaluator.perform_sealed ih room (h.later h₁)

end FrameLisp
