/-
Well-scoped programs go wrong only in builtins.

A datum is well-scoped under a set of names when its special forms have the shape that they require and every name that
it evaluates is in the set or bound around it (`Scoped`). A function may use the name that a define or let form gives
it, and a form that defines a name makes it known to the forms after it. If the forms of a program are well-scoped one
after another, starting from the names of the builtins, then a session that evaluates them never meets a name that is
not bound or a form that is malformed: it stops for the operands of a builtin or for depth, if it stops
(`scoped_program_is_safe`).

The invariant is that every closure, wherever it is, has a body that is well-scoped under its parameters and the names
that the captured frame sees (`Store.Closed`). Frames see more names with time and never fewer, so a closure stays as
good as it was. The closure of a define or let form is made before its name is bound, and nothing is evaluated in
between, so it is as good as any once it can be called.
-/
import FrameLisp.Proofs.Evaluation.Reachable

namespace FrameLisp

/-! ## Well-scoped programs -/

/-- the name that a datum binds if it is a define form -/
def Datum.target (d : Datum) : Set String := {x | ∃ body, d.HasShape (.define x body)}

mutual

/-- a datum is well-scoped under a set of names -/
inductive Scoped : Set String → Datum → Prop
  | value {G d v} (hd : d.HasShape (.value v)) : Scoped G d
  | name {G d x} (hd : d.HasShape (.name x)) (hx : x ∈ G) : Scoped G d
  | items {G d head args} (hd : d.HasShape (.items head args)) (h : ∀ e ∈ head :: args, Scoped G e) : Scoped G d
  | define {G d x body} (hd : d.HasShape (.define x body)) (h : Scoped G body) : Scoped G d
  /-- a function that is defined may use its own name -/
  | defineFunction {G d x body params forms} (hd : d.HasShape (.define x body))
    (hbody : body.HasShape (.function params forms)) (h : Scoped (insert x G) body) : Scoped G d
  | conditional {G d condition consequent alternative}
    (hd : d.HasShape (.conditional condition consequent alternative))
    (h : ∀ e ∈ condition :: consequent :: alternative.toList, Scoped G e) : Scoped G d
  | block {G H d bindings body} (hd : d.HasShape (.block bindings body)) (hbindings : ScopedBindings G bindings H)
    (h : Scoped H body) : Scoped G d
  | function {G d params forms} (hd : d.HasShape (.function params forms))
    (h : ScopedSequence ({x | x ∈ params} ∪ G) forms) : Scoped G d

/-- forms are well-scoped one after another, and what one of them defines is known to those after it -/
inductive ScopedSequence : Set String → List Datum → Prop
  | nil {G} : ScopedSequence G []
  | cons {G d ds} (hd : Scoped G d) (hds : ScopedSequence (d.target ∪ G) ds) : ScopedSequence G (d :: ds)

/-- the bindings of a let form are well-scoped one after another, and after them the names `H` are known -/
inductive ScopedBindings : Set String → List Datum → Set String → Prop
  | nil {G} : ScopedBindings G [] G
  | cons {G H x body bs} (h : Scoped G body) (hbs : ScopedBindings (insert x G) bs H) :
    ScopedBindings G (.list [Datum.identifier x, body] :: bs) H
  /-- a function that is bound may use its own name -/
  | consFunction {G H x body bs params forms} (hbody : body.HasShape (.function params forms))
    (h : Scoped (insert x G) body) (hbs : ScopedBindings (insert x G) bs H) :
    ScopedBindings G (.list [Datum.identifier x, body] :: bs) H

end

theorem Scoped.forms {G : Set String} {d : Datum} {params : List String} {forms : List Datum} (h : Scoped G d)
    (hd : d.HasShape (.function params forms)) : ScopedSequence ({x | x ∈ params} ∪ G) forms := by
  have hshape := hd.shape_eq
  cases h with
  | function hd' h =>
    rw [hd'.shape_eq] at hshape
    cases hshape
    exact h
  | value hd' | name hd' | items hd' | define hd' | defineFunction hd' | conditional hd' | block hd' =>
    rw [hd'.shape_eq] at hshape
    cases hshape

/-- only define forms bind a name in their own frame -/
theorem Datum.target_eq_empty {d : Datum} {shape : Shape} (hd : d.HasShape shape)
    (hshape : ∀ x body, shape ≠ .define x body) : d.target = ∅ := by
  refine Set.eq_empty_of_forall_notMem ?_
  rintro x ⟨body, hx⟩
  exact hshape x body (hd.shape_eq.symm.trans hx.shape_eq)

theorem Datum.target_eq_singleton {d body : Datum} {x : String} (hd : d.HasShape (.define x body)) :
    d.target = {x} := by
  refine Set.eq_singleton_iff_unique_mem.2 ⟨⟨body, hd⟩, ?_⟩
  rintro y ⟨body', hy⟩
  have heq := hd.shape_eq.symm.trans hy.shape_eq
  cases heq
  rfl

/-! ## The names that a frame sees -/

/-- the names that are found from a frame -/
def Store.visible (s : Store) (f : FrameId) : Set String := {x | ∃ v, s.lookup? f x = some v}

namespace Bindings

theorem exists_value {bs : Bindings} {x : String} (h : x ∈ bs.names) : ∃ v, bs.value? x = some v := by
  cases hv : bs.value? x with
  | some v => exact ⟨v, rfl⟩
  | none => exact absurd h (value?_eq_none_iff.1 hv)

end Bindings

namespace Store

variable {s t : Store} {f : FrameId} {x : String}

theorem mem_visible_of_names {frame : Frame} (h : s.frame? f = some frame) (hx : x ∈ frame.bindings.names) :
    x ∈ s.visible f := by
  obtain ⟨v, hv⟩ := Bindings.exists_value hx
  exact ⟨v, lookup?_here h hv⟩

theorem mem_visible_of_outer {frame : Frame} {outer : FrameId} (h : s.frame? f = some frame)
    (hlt : ∀ outer, frame.outer = some outer → outer < f) (houter : frame.outer = some outer)
    (hx : x ∈ s.visible outer) : x ∈ s.visible f := by
  obtain ⟨v, hv⟩ := hx
  cases hhere : frame.bindings.value? x with
  | some u => exact ⟨u, lookup?_here h hhere⟩
  | none =>
    refine ⟨v, ?_⟩
    rw [lookup?_eq h hlt, hhere, houter]
    exact hv

/-- frames go on seeing what they see -/
theorem visible_mono (hst : s.Extends t) (hs : s.WellFormed) (hf : f < s.size) : s.visible f ⊆ t.visible f := by
  intro x hx
  refine hs.induct (motive := fun g => x ∈ s.visible g → x ∈ t.visible g) ?_ hf hx
  rintro g frame hg ih ⟨v, hv⟩
  have hlt : ∀ outer, frame.outer = some outer → outer < g := fun outer => hs.outer_lt g frame outer hg
  obtain ⟨frame', hg', hsame, hnames⟩ := hst.frames g frame hg
  rw [lookup?_eq hg hlt] at hv
  rcases Option.or_eq_some_iff.1 hv with hhere | ⟨-, haround⟩
  · have hmem : x ∈ frame.bindings.names := by
      by_contra hnot
      rw [Bindings.value?_eq_none_iff.2 hnot] at hhere
      cases hhere
    exact mem_visible_of_names hg' (hnames.subset hmem)
  · obtain ⟨outer, houter, hv⟩ := Option.bind_eq_some_iff.1 haround
    refine mem_visible_of_outer hg' ?_ (hsame.trans houter) (ih outer houter ⟨v, hv⟩)
    intro outer' houter'
    exact hlt outer' (hsame.symm.trans houter')

theorem mem_visible_define (hf : f < s.size) (x : String) (v : Datum) : x ∈ (s.define f x v).visible f := by
  obtain ⟨frame, hframe⟩ := exists_frame hf
  have hnew : (s.define f x v).frame? f = some { frame with bindings := frame.bindings.assign x v } := by
    rw [frame?_define, if_pos rfl, hframe]
    rfl
  exact mem_visible_of_names hnew (Bindings.mem_names_assign.2 (Or.inl rfl))

/-- a new frame sees its own names and those of the frame around it -/
theorem visible_push (hs : s.WellFormed) (bindings : Bindings) {outer : FrameId} (houter : outer < s.size) :
    {x | x ∈ bindings.names} ∪ s.visible outer ⊆ (s.push bindings (some outer)).visible s.size := by
  have hnew : (s.push bindings (some outer)).frame? s.size = some ⟨bindings, some outer⟩ := by
    rw [frame?_push, if_pos rfl]
  rintro x (hx | hx)
  · exact mem_visible_of_names hnew hx
  · refine mem_visible_of_outer hnew (fun g hg => ?_) rfl ?_
    · cases hg
      exact houter
    · exact visible_mono (extends_push s bindings (some outer)) hs houter hx

end Store

/-! ## The invariant -/

/-- the closures of a datum captured frames of the store, and their bodies are well-scoped for what these see -/
def Datum.Closed (s : Store) (d : Datum) : Prop :=
  d.AllClosures fun params forms g =>
    g < s.size ∧ ∃ G, G ⊆ s.visible g ∧ ScopedSequence ({x | x ∈ params} ∪ G) forms

/-- every closure that is bound anywhere finds the names that its body uses -/
structure Store.Closed (s : Store) : Prop where
  wellFormed : s.WellFormed
  values : s.All (Datum.Closed s)

/-- `t` comes after `s` and is closed -/
structure Store.Later (s t : Store) : Prop where
  grows : s.Extends t
  closed : t.Closed

/-- data may be evaluated in a frame, which sees all of `G` -/
structure Store.Covers (s : Store) (f : FrameId) (G : Set String) (ds : List Datum) : Prop where
  closed : s.Closed
  frame_lt : f < s.size
  closures : ∀ d ∈ ds, d.Closed s
  sees : G ⊆ s.visible f

section

variable {s t u : Store} {f : FrameId} {G : Set String} {d : Datum} {ds : List Datum}

theorem Datum.Closed.within (h : d.Closed s) : d.Within s.size := AllClosures.mono h fun _ _ _ hp => hp.1

theorem Datum.Closed.mono (h : d.Closed s) (hst : s.Extends t) (hs : s.WellFormed) : d.Closed t := by
  refine AllClosures.mono h fun params forms g hp => ?_
  obtain ⟨hg, G, hsees, hforms⟩ := hp
  exact ⟨hg.trans_le hst.size_le, G, hsees.trans (Store.visible_mono hst hs hg), hforms⟩

namespace Store

theorem Closed.later (h : s.Closed) : s.Later s := ⟨.refl s, h⟩

theorem Later.trans (h₁ : s.Later t) (h₂ : t.Later u) : s.Later u := ⟨h₁.grows.trans h₂.grows, h₂.closed⟩

/-- a value that is closed once it is bound may be bound -/
theorem Closed.define (h : s.Closed) (f : FrameId) (x : String) {v : Datum} (hv : v.Closed (s.define f x v)) :
    s.Later (s.define f x v) := by
  have hext : s.Extends (s.define f x v) := (changesOnly_define s f x v).extends
  have hwithin : v.Within s.size := by
    have hv := hv.within
    rwa [size_define] at hv
  refine ⟨hext, h.wellFormed.define f x hwithin, ?_⟩
  have hvalues : s.All (Datum.Closed (s.define f x v)) := h.values.mono fun _ hd => hd.mono hext h.wellFormed
  exact hvalues.define f x hv

theorem Closed.push (h : s.Closed) {bindings : Bindings} (hbindings : bindings.All (Datum.Closed s)) {outer : FrameId}
    (houter : outer < s.size) : s.Later (s.push bindings (some outer)) := by
  have hext := extends_push s bindings (some outer)
  have hwithin : bindings.All (Datum.Within s.size) := hbindings.mono fun _ hd => hd.within
  refine ⟨hext, h.wellFormed.push hwithin fun g hg => ?_, ?_⟩
  · cases hg
    exact houter
  · exact (h.values.push hbindings (some outer)).mono fun _ hd => hd.mono hext h.wellFormed

namespace Covers

theorem later (h : s.Covers f G ds) (hst : s.Later t) : t.Covers f G ds := by
  have hs := h.closed.wellFormed
  refine ⟨hst.closed, h.frame_lt.trans_le hst.grows.size_le, fun d hd => ?_, ?_⟩
  · exact (h.closures d hd).mono hst.grows hs
  · exact h.sees.trans (visible_mono hst.grows hs h.frame_lt)

theorem subset {es : List Datum} (h : s.Covers f G ds) (hsub : ∀ e ∈ es, e ∈ ds) : s.Covers f G es :=
  ⟨h.closed, h.frame_lt, fun e he => h.closures e (hsub e he), h.sees⟩

theorem head (h : s.Covers f G (d :: ds)) : s.Covers f G [d] := h.subset (by simp)

theorem tail (h : s.Covers f G (d :: ds)) : s.Covers f G ds := h.subset (by simp +contextual)

theorem parts (h : s.Covers f G [d]) {shape : Shape} (hd : d.HasShape shape) : s.Covers f G shape.parts := by
  refine ⟨h.closed, h.frame_lt, fun e he => ?_, h.sees⟩
  rw [← hd.shape_eq] at he
  exact Datum.AllClosures.part (h.closures d (by simp)) he

/-- the value of a binding of a let form -/
theorem binding {x : String} {body : Datum} (h : s.Covers f G (.list [Datum.identifier x, body] :: ds)) :
    s.Covers f G [body] := by
  have hlist := Datum.allClosures_list.1 (h.closures _ List.mem_cons_self)
  refine ⟨h.closed, h.frame_lt, fun e he => ?_, h.sees⟩
  rw [List.mem_singleton.1 he]
  exact hlist body (by simp)

/-- what a frame sees may be more than `G` -/
theorem more {H : Set String} (h : s.Covers f G ds) (hH : H ⊆ s.visible f) : s.Covers f H ds :=
  ⟨h.closed, h.frame_lt, h.closures, hH⟩

end Covers

end Store

end

/-! ## One level of evaluation -/

namespace Evaluator

variable {α β : Type} {w : World} {room depth : Nat}

/-- `x` leaves a closed store and a result that meets `ok`, or it stops in a builtin or at a limit -/
abbrev Safe (x : Run α) (w : World) (ok : Store → α → Prop) : Prop :=
  x.EndsIn Store.Later (fun fault => fault.OfBuiltin ∨ fault = .tooDeep) w ok

theorem Safe.bind {x : Run α} {next : α → Run β} {ok : Store → α → Prop} {done : Store → β → Prop} (h : Safe x w ok)
    (hnext : ∀ a w', w.store.Later w'.store → ok w'.store a → Safe (next a) w' done) : Safe (x >>= next) w done :=
  Effect.EndsIn.bind h hnext fun _ _ _ => Store.Later.trans

theorem safe_pure (h : w.store.Closed) {ok : Store → α → Prop} {a : α} (ha : ok w.store a) : Safe (pure a) w ok :=
  Effect.endsIn_ok rfl h.later ha

/-- after a name is bound, the frame sees it and its value is as good as before -/
theorem safe_define (h : w.store.Closed) {f : FrameId} (hf : f < w.store.size) (x : String) {v : Datum}
    (hv : v.Closed (w.store.define f x v)) :
    Safe (Effect.define f x v) w fun s _ => x ∈ s.visible f ∧ v.Closed s :=
  Effect.endsIn_ok rfl (h.define f x hv) ⟨Store.mem_visible_define hf x v, hv⟩

theorem safe_newFrame (h : w.store.Closed) {bindings : Bindings} (hbindings : bindings.All (Datum.Closed w.store))
    {outer : FrameId} (houter : outer < w.store.size) :
    Safe (Effect.newFrame bindings (some outer)) w
      fun s inner => inner < s.size ∧ {x | x ∈ bindings.names} ∪ w.store.visible outer ⊆ s.visible inner :=
  Effect.endsIn_ok rfl (h.push hbindings houter) ⟨by simp, Store.visible_push h.wellFormed bindings houter⟩

theorem safe_builtin (h : w.store.Closed) (b : Builtin) {args : List Datum} (hargs : ∀ a ∈ args, a.Closed w.store) :
    Safe (b.call room args) w fun s v => v.Closed s := by
  refine Builtin.call_endsIn h.later (fun v hv => ?_) (fun fault hfault => ?_) (Or.inr rfl)
  · exact Datum.allClosures_result hargs hv
  · exact Or.inl (Builtin.ofBuiltin_of_result hfault)

/-- a function form comes to its closure at once -/
theorem function_safe {f : FrameId} {G : Set String} {d : Datum} {params : List String} {forms : List Datum}
    (h : w.store.Covers f G [d]) (hd : d.HasShape (.function params forms)) :
    Safe (d.evaluate room depth f) w fun _ v => v = .closure params forms f := by
  cases depth with
  | zero => exact Effect.endsIn_error rfl h.closed.later (Or.inr rfl)
  | succ depth =>
    rw [Datum.evaluate_succ, Datum.evaluateWith_eq, hd.shape_eq]
    refine Safe.bind (Effect.endsIn_noteAll h.closed.later _) ?_
    intro _ w₁ h₁ _
    exact safe_pure h₁.closed rfl

/-- the closure of a function form is closed where the name that it may use is bound -/
theorem closed_of_function {s : Store} {f : FrameId} {G : Set String} {d : Datum} {params : List String}
    {forms : List Datum} {x : String} {v : Datum} (h : s.Covers f G [d]) (hd : d.HasShape (.function params forms))
    (hscoped : Scoped (insert x G) d) : (Datum.closure params forms f).Closed (s.define f x v) := by
  have hext : s.Extends (s.define f x v) := (Store.changesOnly_define s f x v).extends
  have hmono := Store.visible_mono hext h.closed.wellFormed h.frame_lt
  refine Datum.allClosures_closure.2 ⟨⟨h.frame_lt.trans_le hext.size_le, insert x G, ?_, hscoped.forms hd⟩, ?_⟩
  · exact Set.insert_subset (Store.mem_visible_define h.frame_lt x v) (h.sees.trans hmono)
  · intro e he
    exact ((h.parts hd).closures e he).mono hext h.closed.wellFormed

section

variable (hev : ∀ d f w G, w.store.Covers f G [d] → Scoped G d →
  Safe (d.evaluate room depth f) w fun s v => v.Closed s ∧ d.target ⊆ s.visible f)

include hev

/-- data that are well-scoped one by one, under names that are known or are defined on the way -/
theorem each_safe {P : Set String → List Datum → Prop}
    (hP : ∀ G d ds, P G (d :: ds) → Scoped G d ∧ ∃ H, H ⊆ d.target ∪ G ∧ P H ds) {f : FrameId} {G : Set String}
    {ds : List Datum} (h : w.store.Covers f G ds) (hds : P G ds) :
    Safe ((Datum.evaluate room depth).each f ds) w fun s vs => ∀ v ∈ vs, v.Closed s := by
  induction ds generalizing w G with
  | nil => exact safe_pure h.closed (by simp)
  | cons d ds ih =>
    obtain ⟨hscoped, H, hH, hrest⟩ := hP G d ds hds
    refine (hev d f w G h.head hscoped).bind ?_
    intro v w₁ h₁ hv
    have hlater := h.tail.later h₁
    refine (ih (hlater.more (hH.trans (Set.union_subset hv.2 hlater.sees))) hrest).bind ?_
    intro vs w₂ h₂ hvs
    have hv₂ := hv.1.mono h₂.grows h₁.closed.wellFormed
    exact safe_pure h₂.closed (List.forall_mem_cons.2 ⟨hv₂, hvs⟩)

theorem sequence_safe {f : FrameId} {G : Set String} {ds : List Datum} (h : w.store.Covers f G ds)
    (hds : ScopedSequence G ds) {last : Datum} (hlast : last.Closed w.store) :
    Safe ((Datum.evaluate room depth).sequence f last ds) w fun s v => v.Closed s := by
  induction ds generalizing w G last with
  | nil => exact safe_pure h.closed hlast
  | cons d ds ih =>
    cases hds with
    | cons hd hds =>
      refine (hev d f w G h.head hd).bind ?_
      intro v w₁ h₁ hv
      have hlater := h.tail.later h₁
      exact ih (hlater.more (Set.union_subset hv.2 hlater.sees)) hds hv.1

/-- the value that is bound to a name, be it a function that uses the name or not -/
theorem bound_safe {f : FrameId} {G : Set String} {x : String} {body : Datum} (h : w.store.Covers f G [body])
    (hbody : Scoped G body ∨
      ∃ params forms, body.HasShape (.function params forms) ∧ Scoped (insert x G) body) :
    Safe (body.evaluate room depth f) w fun s v => v.Closed (s.define f x v) := by
  rcases hbody with hbody | ⟨params, forms, hshape, hbody⟩
  · refine (hev body f w G h hbody).mono fun s v hs hv => ?_
    exact hv.1.mono (Store.changesOnly_define s f x v).extends hs.closed.wellFormed
  · refine (function_safe h hshape).mono fun s v hs hv => ?_
    rw [hv]
    exact closed_of_function (h.later hs) hshape hbody

theorem fill_safe {f : FrameId} {G H : Set String} {bs : List Datum} (h : w.store.Covers f G bs)
    (hbs : ScopedBindings G bs H) :
    Safe ((Datum.evaluate room depth).fill f bs) w fun s _ => H ⊆ s.visible f := by
  induction bs generalizing w G with
  | nil =>
    cases hbs
    exact safe_pure h.closed h.sees
  | cons b bs ih =>
    have hcases : ∃ x body, b = .list [Datum.identifier x, body] ∧ ScopedBindings (insert x G) bs H ∧
        (Scoped G body ∨ ∃ params forms, body.HasShape (.function params forms) ∧ Scoped (insert x G) body) := by
      cases hbs with
      | cons hbody hrest => exact ⟨_, _, rfl, hrest, Or.inl hbody⟩
      | consFunction hshape hbody hrest => exact ⟨_, _, rfl, hrest, Or.inr ⟨_, _, hshape, hbody⟩⟩
    obtain ⟨x, body, rfl, hrest, hbody⟩ := hcases
    refine (bound_safe hev h.binding hbody).bind ?_
    intro v w₁ h₁ hv
    have hlater := h.tail.later h₁
    refine (safe_define h₁.closed hlater.frame_lt x hv).bind ?_
    intro _ w₂ h₂ hx
    have hlater₂ := hlater.later h₂
    exact ih (hlater₂.more (Set.insert_subset hx.1 hlater₂.sees)) hrest

theorem call_safe (h : w.store.Closed) {function : Datum} (hfunction : function.Closed w.store)
    (hcallable : function.isFunction = true) {args : List Datum} (hargs : ∀ a ∈ args, a.Closed w.store) :
    Safe ((Datum.evaluate room depth).call room function args) w fun s v => v.Closed s := by
  cases function with
  | closure params forms captured =>
    obtain ⟨⟨hcaptured, G, hsees, hforms⟩, hclosures⟩ := Datum.allClosures_closure.1 hfunction
    have hbindings := Bindings.all_ofPairs (Bindings.all_ofParams Datum.allClosures_absent hargs params)
    refine (safe_newFrame h hbindings hcaptured).bind ?_
    intro inner w₁ h₁ hinner
    obtain ⟨hlt, hvisible⟩ := hinner
    refine sequence_safe hev ⟨h₁.closed, hlt, fun d hd => ?_, ?_⟩ hforms Datum.allClosures_absent
    · exact Datum.Closed.mono (hclosures d hd) h₁.grows h.wellFormed
    · refine Set.Subset.trans (Set.union_subset_union (fun x hx => ?_) hsees) hvisible
      exact Bindings.mem_names_ofParams.2 hx
  | builtin b => exact safe_builtin h b hargs
  | _ => cases hcallable

/-! ### By shape -/

theorem items_safe {f : FrameId} {G : Set String} {head : Datum} {args : List Datum}
    (h : w.store.Covers f G (head :: args)) (hitems : ∀ e ∈ head :: args, Scoped G e) :
    Safe ((Shape.items head args).perform room (Datum.evaluate room depth) f) w fun s v => v.Closed s := by
  have hP : ∀ H e es, (∀ a ∈ e :: es, Scoped H a) → Scoped H e ∧ ∃ K, K ⊆ e.target ∪ H ∧ ∀ a ∈ es, Scoped K a := by
    intro H e es hes
    rw [List.forall_mem_cons] at hes
    exact ⟨hes.1, H, Set.subset_union_right, hes.2⟩
  rw [perform_items]
  refine (each_safe hev (P := fun H es => ∀ e ∈ es, Scoped H e) hP h hitems).bind ?_
  intro vs w₁ h₁ hvs
  have hlist := Datum.allClosures_list.2 hvs
  cases vs with
  | nil => exact safe_pure h₁.closed hlist
  | cons function values =>
    rw [List.forall_mem_cons] at hvs
    simp only [Evaluator.combine]
    split
    · next hcallable => exact call_safe hev h₁.closed hvs.1 hcallable hvs.2
    · exact safe_pure h₁.closed hlist

theorem define_safe {f : FrameId} {G : Set String} {x : String} {body : Datum} (h : w.store.Covers f G [body])
    (hbody : Scoped G body ∨
      ∃ params forms, body.HasShape (.function params forms) ∧ Scoped (insert x G) body) :
    Safe ((Shape.define x body).perform room (Datum.evaluate room depth) f) w
      fun s v => v.Closed s ∧ {x} ⊆ s.visible f := by
  refine (bound_safe hev h hbody).bind ?_
  intro v w₁ h₁ hv
  refine (safe_define h₁.closed (h.later h₁).frame_lt x hv).bind ?_
  intro _ w₂ h₂ hx
  exact safe_pure h₂.closed ⟨hx.2, Set.singleton_subset_iff.2 hx.1⟩

theorem conditional_safe {f : FrameId} {G : Set String} {condition consequent : Datum} {alternative : Option Datum}
    (h : w.store.Covers f G (condition :: consequent :: alternative.toList))
    (hparts : ∀ e ∈ condition :: consequent :: alternative.toList, Scoped G e) :
    Safe ((Shape.conditional condition consequent alternative).perform room (Datum.evaluate room depth) f) w
      fun s v => v.Closed s := by
  rw [List.forall_mem_cons, List.forall_mem_cons] at hparts
  obtain ⟨hcondition, hconsequent, halternative⟩ := hparts
  refine (hev condition f w G h.head hcondition).bind ?_
  intro v w₁ h₁ _
  have hrest := h.tail.later h₁
  split
  · exact (hev consequent f w₁ G hrest.head hconsequent).mono fun _ _ _ hu => hu.1
  · cases alternative with
    | none => exact safe_pure h₁.closed Datum.allClosures_absent
    | some alternative =>
      have hscoped := halternative alternative (by simp)
      exact (hev alternative f w₁ G hrest.tail.head hscoped).mono fun _ _ _ hu => hu.1

theorem block_safe {f : FrameId} {G H : Set String} {bindings : List Datum} {body : Datum}
    (h : w.store.Covers f G (body :: bindings)) (hbindings : ScopedBindings G bindings H) (hbody : Scoped H body) :
    Safe ((Shape.block bindings body).perform room (Datum.evaluate room depth) f) w fun s v => v.Closed s := by
  refine (safe_newFrame h.closed Bindings.all_nil h.frame_lt).bind ?_
  intro inner w₁ h₁ hinner
  obtain ⟨hlt, hvisible⟩ := hinner
  have hsees : G ⊆ w₁.store.visible inner := (h.sees.trans Set.subset_union_right).trans hvisible
  have hcovers : w₁.store.Covers inner G (body :: bindings) := ⟨h₁.closed, hlt, (h.later h₁).closures, hsees⟩
  refine (fill_safe hev hcovers.tail hbindings).bind ?_
  intro _ w₂ h₂ hH
  exact (hev body inner w₂ H ((hcovers.head.later h₂).more hH) hbody).mono fun _ _ _ hu => hu.1

theorem perform_safe {f : FrameId} {G : Set String} {d : Datum} (h : w.store.Covers f G [d]) (hscoped : Scoped G d) :
    Safe (d.shape.perform room (Datum.evaluate room depth) f) w fun s v => v.Closed s ∧ d.target ⊆ s.visible f := by
  have hnone : ∀ {shape : Shape}, d.HasShape shape → (∀ x body, shape ≠ .define x body) →
      Safe (shape.perform room (Datum.evaluate room depth) f) w (fun s v => v.Closed s) →
      Safe (d.shape.perform room (Datum.evaluate room depth) f) w
        fun s v => v.Closed s ∧ d.target ⊆ s.visible f := by
    intro shape hd hshape hsafe
    rw [hd.shape_eq, Datum.target_eq_empty hd hshape]
    exact hsafe.mono fun s v _ hv => ⟨hv, Set.empty_subset _⟩
  cases hscoped with
  | value hd =>
    have hself := h.closures d (by simp)
    exact hnone hd (by simp) (safe_pure h.closed (hself.of_value hd.shape_eq))
  | name hd hx =>
    obtain ⟨v, hv⟩ := h.sees hx
    have hclosed := h.closed.values.lookup hv
    exact hnone hd (by simp) (Effect.endsIn_ok (Run.lookup_ok hv) h.closed.later hclosed)
  | items hd hitems => exact hnone hd (by simp) (items_safe hev (h.parts hd) hitems)
  | define hd hbody =>
    rw [hd.shape_eq, Datum.target_eq_singleton hd]
    exact define_safe hev (h.parts hd) (Or.inl hbody)
  | defineFunction hd hshape hbody =>
    rw [hd.shape_eq, Datum.target_eq_singleton hd]
    exact define_safe hev (h.parts hd) (Or.inr ⟨_, _, hshape, hbody⟩)
  | conditional hd hparts => exact hnone hd (by simp) (conditional_safe hev (h.parts hd) hparts)
  | block hd hbindings hbody => exact hnone hd (by simp) (block_safe hev (h.parts hd) hbindings hbody)
  | @function _ _ params forms hd hforms =>
    have hclosed : (Datum.closure params forms f).Closed w.store :=
      Datum.allClosures_closure.2 ⟨⟨h.frame_lt, G, h.sees, hforms⟩, (h.parts hd).closures⟩
    exact hnone hd (by simp) (safe_pure h.closed hclosed)

end

end Evaluator

theorem Datum.evaluate_safe (room depth : Nat) {d : Datum} {f : FrameId} {G : Set String} {w : World}
    (h : w.store.Covers f G [d]) (hscoped : Scoped G d) :
    Evaluator.Safe (d.evaluate room depth f) w fun s v => v.Closed s ∧ d.target ⊆ s.visible f := by
  induction depth generalizing d f G w with
  | zero => exact Effect.endsIn_error rfl h.closed.later (Or.inr rfl)
  | succ depth ih =>
    rw [evaluate_succ, evaluateWith_eq]
    refine Evaluator.Safe.bind (Effect.endsIn_noteAll h.closed.later _) ?_
    intro _ w₁ h₁ _
    exact Evaluator.perform_safe (fun d f w G hd => ih hd) (h.later h₁) hscoped

/-! ## Main statement -/

/-- the names that a session knows from the start -/
def Builtin.known : Set String := {x | ∃ b : Builtin, b.name = x}

theorem Store.covers_root : (Store.empty.push Builtin.bindings none).Covers 0 Builtin.known [] := by
  have hbindings : ∀ p : List String → List Datum → FrameId → Prop, Builtin.bindings.All (Datum.AllClosures p) := by
    intro p pair hpair
    obtain ⟨b, -, rfl⟩ := List.mem_map.1 hpair
    exact Datum.allClosures_builtin b
  have hwell : (Store.empty.push Builtin.bindings none).WellFormed :=
    wellFormed_empty.push (hbindings _) fun g hg => by cases hg
  refine ⟨⟨hwell, all_empty.push (hbindings _) none⟩, by simp, by simp, ?_⟩
  rintro x ⟨b, rfl⟩
  have hroot : (Store.empty.push Builtin.bindings none).frame? 0 = some ⟨Builtin.bindings, none⟩ := rfl
  refine mem_visible_of_names hroot ?_
  exact List.mem_map.2 ⟨(b.name, .builtin b), List.mem_map.2 ⟨b, b.mem_all, rfl⟩, rfl⟩

/-- **Well-scoped programs go wrong only in builtins.** If forms that were read are well-scoped one after another, from
the names of the builtins on, then a session without a prelude that evaluates them never stops for a name that is not
bound or a form that is malformed, but only in a builtin that got the wrong operands, or at a limit. -/
theorem scoped_program_is_safe (s : Surroundings) (printed : String) (notes : Array Note) {forms : List Datum}
    (hparsed : ∀ d ∈ forms, d.Parsed) (hscoped : ScopedSequence Builtin.known forms) (room depth : Nat) :
    ∃ root w, Session.start s .nothing ⟨.empty, printed, notes⟩ = (.ok root, w) ∧
      ∀ fault w', (Datum.evaluate room depth).each root forms w = (.error fault, w') →
        fault.OfBuiltin ∨ fault = .tooDeep := by
  refine ⟨0, ⟨.push .empty Builtin.bindings none, printed, notes⟩, rfl, fun fault w' hfault => ?_⟩
  have hroot := Store.covers_root
  have hcovers : (Store.empty.push Builtin.bindings none).Covers 0 Builtin.known forms :=
    ⟨hroot.closed, hroot.frame_lt, fun d hd => (hparsed d hd).allClosures, hroot.sees⟩
  have hP : ∀ G d ds, ScopedSequence G (d :: ds) → Scoped G d ∧ ∃ H, H ⊆ d.target ∪ G ∧ ScopedSequence H ds := by
    intro G d ds h
    cases h with
    | cons hd hds => exact ⟨hd, _, Set.Subset.rfl, hds⟩
  have hsafe := Evaluator.each_safe (w := ⟨.push .empty Builtin.bindings none, printed, notes⟩)
    (fun d f w G h hd => Datum.evaluate_safe room depth h hd) hP hcovers hscoped
  exact (hsafe.of_error hfault).2

/-- a function that calls itself, and a call of it -/
theorem recursive_program_is_safe :
    let call : Datum → Datum := fun arg => .list [.identifier "f", arg]
    let forms : List Datum :=
      [.ofForm .define [.identifier "f", .ofForm .function [.list [.identifier "n"], call (.identifier "n")]],
        call (.atom (.string "a"))]
    (∀ d ∈ forms, d.Parsed) ∧ ScopedSequence Builtin.known forms ∧
      ∀ s limits, ∃ root w, Session.start s .nothing ⟨.empty, "", #[]⟩ = (.ok root, w) ∧
        ∀ fault w', (Datum.value limits).each root forms w = (.error fault, w') →
          fault.OfBuiltin ∨ fault = .tooDeep := by
  intro call forms
  have hkeyword : (Datum.identifier "f").NoKeyword := Datum.noKeyword_iff.2 (by decide)
  have hcall : ∀ {G : Set String} {arg : Datum}, "f" ∈ G → Scoped G arg → Scoped G (call arg) := by
    intro G arg hf harg
    refine .items (.items hkeyword [arg]) fun e he => ?_
    rcases List.mem_cons.1 he with rfl | he
    · exact .name (.name "f") hf
    · rw [List.mem_singleton.1 he]
      exact harg
  have hparsed : ∀ d ∈ forms, d.Parsed := by
    simp [forms, call, Datum.ofForm, Datum.identifier, Datum.parsed_list, Datum.Parsed.atom]
  have hscoped : ScopedSequence Builtin.known forms := by
    refine .cons (.defineFunction (.define "f" _) (.function ["n"] _) ?_) (.cons ?_ .nil)
    · refine .function (.function ["n"] _) (.cons (hcall (by simp) (.name (.name "n") (by simp))) .nil)
    · exact hcall (Or.inl ⟨_, .define "f" _⟩) (.value (.string "a"))
  exact ⟨hparsed, hscoped, fun s limits =>
    scoped_program_is_safe s "" #[] hparsed hscoped limits.display limits.evaluation⟩

end FrameLisp
