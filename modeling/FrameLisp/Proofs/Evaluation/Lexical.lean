/-
A caller's binding is invisible.

A new frame `c` may bind a name `y` or not: if `y` is mentioned nowhere in a datum, the datum evaluated in `c` comes to
the same, prints the same, and leaves the same store but for that binding (`evaluation_is_lexical`). This holds whatever
the functions that it calls mention, since they were made in other frames and are evaluated inside those.

What is to be kept in a run is that the code that may ever run inside `c` does not mention `y`: the closures that
captured `c` or a frame inside it all come from the datum (`Store.Unaware`). Such code never looks `y` up, so it finds
the same values whether `c` binds `y` or not (`lookup?_withExtra`), and what it binds is not `y`, so that the extra
binding stays where it was (`withExtra_define`). So the runs with and without the binding are coupled at every step
(`Evaluator.Invisible`).
-/
import FrameLisp.Proofs.Evaluation.Reachable

namespace FrameLisp

/-! ## Mentioned names -/

/-- a name occurs in a datum; the keyword that a special form starts with is not an occurrence -/
inductive Datum.Mentions (y : String) : Datum → Prop
  | identifier : Mentions y (identifier y)
  | head {head : Datum} {args : List Datum} (hkeyword : head.NoKeyword) (h : Mentions y head) :
    Mentions y (.list (head :: args))
  | arg {d head : Datum} {args : List Datum} (hmem : d ∈ args) (h : Mentions y d) : Mentions y (.list (head :: args))

namespace Datum

variable {d : Datum} {y : String}

theorem mentions_identifier {x : String} : (identifier x).Mentions y ↔ x = y := by
  refine ⟨?_, ?_⟩
  · intro h
    generalize hx : identifier x = d at h
    cases h with
    | identifier =>
      cases hx
      rfl
    | head | arg => cases hx
  · rintro rfl
    exact .identifier

theorem mentions_cons {head : Datum} {args : List Datum} :
    Mentions y (.list (head :: args)) ↔ (head.NoKeyword ∧ head.Mentions y) ∨ ∃ a ∈ args, a.Mentions y := by
  refine ⟨?_, ?_⟩
  · intro h
    generalize hd : Datum.list (head :: args) = d at h
    cases h with
    | identifier => cases hd
    | head hkeyword h =>
      cases hd
      exact Or.inl ⟨hkeyword, h⟩
    | arg hmem h =>
      cases hd
      exact Or.inr ⟨_, hmem, h⟩
  · rintro (⟨hkeyword, h⟩ | ⟨a, hmem, h⟩)
    · exact .head hkeyword h
    · exact .arg hmem h

theorem not_mentions_arg {head : Datum} {args : List Datum} (h : ¬ Mentions y (.list (head :: args))) :
    ∀ a ∈ args, ¬ a.Mentions y :=
  fun _ ha hy => h (.arg ha hy)

/-- a datum that does not mention a name is not that name, does not define it, and its parts do not mention it -/
theorem HasShape.not_mentions {s : Shape} (hd : d.HasShape s) (h : ¬ d.Mentions y) :
    (∀ x, s = .name x → x ≠ y) ∧ (∀ x body, s = .define x body → x ≠ y) ∧
      (s.opensFrame = false → ∀ e ∈ s.parts, ¬ e.Mentions y) := by
  cases hd with
  | name x =>
    refine ⟨fun z hz hzy => ?_, by simp, by simp [Shape.parts]⟩
    cases hz
    subst hzy
    exact h .identifier
  | items hkeyword args =>
    refine ⟨by simp, by simp, fun _ e he => ?_⟩
    rcases List.mem_cons.1 he with rfl | he
    · exact fun hy => h (.head hkeyword hy)
    · exact not_mentions_arg h e he
  | define x body =>
    have hargs := not_mentions_arg h
    refine ⟨by simp, fun z b hz hzy => ?_, fun _ e he => hargs e ?_⟩
    · cases hz
      subst hzy
      exact hargs (identifier x) (by simp) .identifier
    · rw [List.mem_singleton.1 he]
      simp
  | conditional condition consequent others =>
    have hargs := not_mentions_arg h
    refine ⟨by simp, by simp, fun _ e he => hargs e ?_⟩
    simp only [Shape.parts, List.mem_cons, Option.mem_toList] at he
    rcases he with rfl | rfl | he
    · simp
    · simp
    · simp [List.mem_of_mem_head? he]
  | number | string | empty | value | defineArity | notDefinable | conditionalArity | blockShape | functionShape |
    badParameter => exact ⟨by simp, by simp, by simp [Shape.parts]⟩
  | block bindings body => exact ⟨by simp, by simp, by simp [Shape.opensFrame]⟩
  | function params body => exact ⟨by simp, by simp, by simp [Shape.opensFrame]⟩

theorem HasShape.not_mentions_block {bindings : List Datum} {body : Datum} (hd : d.HasShape (.block bindings body))
    (h : ¬ d.Mentions y) :
    ¬ body.Mentions y ∧ ∀ x value, .list [identifier x, value] ∈ bindings → ¬ value.Mentions y := by
  cases hd with
  | block =>
    have hargs := not_mentions_arg h
    refine ⟨hargs body (by simp), fun x value hmem hvalue => ?_⟩
    have hbinding : Mentions y (.list [identifier x, value]) := .arg (by simp) hvalue
    have hbindings : ¬ Mentions y (.list bindings) := hargs _ (by simp)
    cases bindings with
    | nil => simp at hmem
    | cons b bindings =>
      rcases List.mem_cons.1 hmem with rfl | hmem
      · refine hbindings (.head (fun form heq => ?_) hbinding)
        cases heq
      · exact hbindings (.arg hmem hbinding)

theorem HasShape.not_mentions_function {params : List String} {body : List Datum}
    (hd : d.HasShape (.function params body)) (h : ¬ d.Mentions y) : ∀ e ∈ body, ¬ e.Mentions y := by
  cases hd with
  | function => exact fun e he => not_mentions_arg h e (List.mem_cons_of_mem _ he)

/-- what a datum defines in its frame, it mentions -/
theorem Defines.mentions (h : d.Defines y) : d.Mentions y := by
  induction h with
  | target hd =>
    by_contra hnot
    exact (hd.not_mentions hnot).2.1 _ _ rfl rfl
  | part hd hs he _ ih =>
    by_contra hnot
    exact (hd.not_mentions hnot).2.2 hs _ he ih

end Datum

/-! ## Frames inside a frame -/

/-- a frame is `c`, or lies inside `c` -/
inductive Store.Under (s : Store) (c : FrameId) : FrameId → Prop
  | self : Under s c c
  | inner {g outer : FrameId} {frame : Frame} (hg : s.frame? g = some frame) (houter : frame.outer = some outer)
      (h : Under s c outer) : Under s c g

namespace Store

variable {s t : Store} {c g : FrameId} {y : String}

/-- frames stay where they are -/
theorem Under.of_extends (h : t.Under c g) (hst : s.Extends t) (hs : s.WellFormed) (hg : g < s.size) : s.Under c g := by
  induction h with
  | self => exact .self
  | inner hframe houter _ ih =>
    obtain ⟨frame, hframe'⟩ := exists_frame hg
    obtain ⟨frame', ht, hsame, -⟩ := hst.frames _ frame hframe'
    rw [hframe] at ht
    cases ht
    have hround : frame.outer = _ := hsame.symm.trans houter
    exact .inner hframe' hround (ih ((hs.outer_lt _ frame _ hframe' hround).trans hg))

theorem le_of_under (h : s.Under c g) (hs : s.WellFormed) : c ≤ g := by
  induction h with
  | self => exact le_rfl
  | inner hframe houter _ ih => exact ih.trans (hs.outer_lt _ _ _ hframe houter).le

/-- a new frame inside `g` is inside `c` only if `g` is -/
theorem under_of_under_push {bindings : Bindings} (h : (s.push bindings (some g)).Under c s.size) (hs : s.WellFormed)
    (hc : c < s.size) (hg : g < s.size) : s.Under c g := by
  cases h with
  | self => exact absurd hc (lt_irrefl _)
  | inner hframe houter h =>
    rw [frame?_push, if_pos rfl] at hframe
    cases hframe
    cases houter
    exact h.of_extends (extends_push s bindings (some g)) hs hg

end Store

/-! ## Code that may run inside a frame -/

section

variable (c : FrameId) (y : String)

/-- the closures of a datum captured frames of the store, and what they evaluate inside `c` does not mention `y` -/
def Datum.Unaware (s : Store) (d : Datum) : Prop :=
  d.AllClosures fun _ body g => g < s.size ∧ (s.Under c g → ∀ e ∈ body, ¬ e.Mentions y)

/-- nothing that may ever be evaluated inside `c` mentions `y` -/
structure Store.Unaware (s : Store) : Prop where
  wellFormed : s.WellFormed
  frame_lt : c < s.size
  values : s.All (Datum.Unaware c y s)

/-- `t` comes after `s`, and nothing in it that may be evaluated inside `c` mentions `y` -/
structure Store.Stays (s t : Store) : Prop where
  grows : s.Extends t
  unaware : t.Unaware c y

/-- data may be evaluated in a frame: they do not mention `y` if that is inside `c` -/
structure Store.Admits (s : Store) (f : FrameId) (ds : List Datum) : Prop where
  unaware : s.Unaware c y
  frame_lt : f < s.size
  closures : ∀ d ∈ ds, d.Unaware c y s
  silent : s.Under c f → ∀ d ∈ ds, ¬ d.Mentions y

/-- bindings of a let form may be evaluated in its frame, which is not `c`: their values do not mention `y` if the frame
is inside `c` -/
structure Store.AdmitsBindings (s : Store) (f : FrameId) (bs : List Datum) : Prop where
  unaware : s.Unaware c y
  frame_lt : f < s.size
  frame_ne : f ≠ c
  closures : ∀ b ∈ bs, b.Unaware c y s
  silent : s.Under c f → ∀ x body, .list [Datum.identifier x, body] ∈ bs → ¬ body.Mentions y

end

section

variable {c : FrameId} {y : String} {s t u : Store} {f : FrameId} {d : Datum} {ds : List Datum}

theorem Datum.Unaware.within (h : d.Unaware c y s) : d.Within s.size := AllClosures.mono h fun _ _ _ hp => hp.1

theorem Datum.Unaware.mono (h : d.Unaware c y s) (hst : s.Extends t) (hs : s.WellFormed) : d.Unaware c y t := by
  refine AllClosures.mono h fun params body g hp => ?_
  obtain ⟨hg, hbody⟩ := hp
  exact ⟨hg.trans_le hst.size_le, fun hunder => hbody (hunder.of_extends hst hs hg)⟩

/-- a datum of an older store is evaluated outside a frame that is newer -/
theorem Datum.Within.unaware {n : Nat} (h : d.Within n) (hn : n ≤ c) (hs : s.WellFormed) (hc : c < s.size) :
    d.Unaware c y s := by
  refine AllClosures.mono h fun params body g hg => ⟨hg.trans_le (hn.trans hc.le), fun hunder => ?_⟩
  have hlt : g < c := Nat.lt_of_lt_of_le hg hn
  exact absurd (Store.le_of_under hunder hs) (Nat.not_le.2 hlt)

namespace Store

theorem Unaware.stays (h : s.Unaware c y) : s.Stays c y s := ⟨.refl s, h⟩

theorem Stays.trans (h₁ : s.Stays c y t) (h₂ : t.Stays c y u) : s.Stays c y u :=
  ⟨h₁.grows.trans h₂.grows, h₂.unaware⟩

theorem Unaware.define (h : s.Unaware c y) (f : FrameId) (x : String) {v : Datum} (hv : v.Unaware c y s) :
    s.Stays c y (s.define f x v) := by
  have hext : s.Extends (s.define f x v) := (changesOnly_define s f x v).extends
  refine ⟨hext, h.wellFormed.define f x hv.within, h.frame_lt.trans_le hext.size_le, ?_⟩
  exact (h.values.define f x hv).mono fun _ hd => hd.mono hext h.wellFormed

theorem Unaware.push (h : s.Unaware c y) {bindings : Bindings} (hbindings : bindings.All (Datum.Unaware c y s))
    {outer : FrameId} (houter : outer < s.size) : s.Stays c y (s.push bindings (some outer)) := by
  have hext := extends_push s bindings (some outer)
  have hwithin : bindings.All (Datum.Within s.size) := hbindings.mono fun _ hd => hd.within
  refine ⟨hext, h.wellFormed.push hwithin fun g hg => ?_, h.frame_lt.trans_le hext.size_le, ?_⟩
  · cases hg
    exact houter
  exact (h.values.push hbindings (some outer)).mono fun _ hd => hd.mono hext h.wellFormed

namespace Admits

theorem later (h : s.Admits c y f ds) (hst : s.Stays c y t) : t.Admits c y f ds := by
  have hs := h.unaware.wellFormed
  refine ⟨hst.unaware, h.frame_lt.trans_le hst.grows.size_le, fun d hd => ?_, fun hunder => ?_⟩
  · exact (h.closures d hd).mono hst.grows hs
  · exact h.silent (hunder.of_extends hst.grows hs h.frame_lt)

theorem subset {es : List Datum} (h : s.Admits c y f ds) (hsub : ∀ e ∈ es, e ∈ ds) : s.Admits c y f es :=
  ⟨h.unaware, h.frame_lt, fun e he => h.closures e (hsub e he), fun hunder e he => h.silent hunder e (hsub e he)⟩

theorem head (h : s.Admits c y f (d :: ds)) : s.Admits c y f [d] := h.subset (by simp)

theorem tail (h : s.Admits c y f (d :: ds)) : s.Admits c y f ds := h.subset (by simp +contextual)

theorem parts (h : s.Admits c y f [d]) {shape : Shape} (hd : d.HasShape shape) (hsame : shape.opensFrame = false) :
    s.Admits c y f shape.parts := by
  refine ⟨h.unaware, h.frame_lt, fun e he => ?_, fun hunder => ?_⟩
  · rw [← hd.shape_eq] at he
    exact Datum.AllClosures.part (h.closures d (by simp)) he
  · exact (hd.not_mentions (h.silent hunder d (by simp))).2.2 hsame

end Admits

namespace AdmitsBindings

variable {b : Datum} {bs : List Datum}

theorem later (h : s.AdmitsBindings c y f bs) (hst : s.Stays c y t) : t.AdmitsBindings c y f bs := by
  have hs := h.unaware.wellFormed
  refine ⟨hst.unaware, h.frame_lt.trans_le hst.grows.size_le, h.frame_ne, fun b hb => ?_, fun hunder => ?_⟩
  · exact (h.closures b hb).mono hst.grows hs
  · exact h.silent (hunder.of_extends hst.grows hs h.frame_lt)

theorem tail (h : s.AdmitsBindings c y f (b :: bs)) : s.AdmitsBindings c y f bs := by
  refine ⟨h.unaware, h.frame_lt, h.frame_ne, fun b hb => ?_, fun hunder x body hmem => ?_⟩
  · exact h.closures b (List.mem_cons_of_mem _ hb)
  · exact h.silent hunder x body (List.mem_cons_of_mem _ hmem)

/-- the value of the first binding -/
theorem body {x : String} {body : Datum} (h : s.AdmitsBindings c y f (.list [Datum.identifier x, body] :: bs)) :
    s.Admits c y f [body] := by
  have hlist := Datum.allClosures_list.1 (h.closures _ List.mem_cons_self)
  refine ⟨h.unaware, h.frame_lt, fun e he => ?_, fun hunder e he => ?_⟩
  · rw [List.mem_singleton.1 he]
    exact hlist body (by simp)
  · rw [List.mem_singleton.1 he]
    exact h.silent hunder x body List.mem_cons_self

end AdmitsBindings

end Store

end

/-! ## The extra binding -/

/-- the store with one more binding in front of those of `c` -/
def Store.withExtra (c : FrameId) (y : String) (v : Datum) (s : Store) : Store := s.update c fun bs => (y, v) :: bs

def World.withExtra (c : FrameId) (y : String) (v : Datum) (w : World) : World :=
  { w with store := w.store.withExtra c y v }

namespace Store

variable {s : Store} {c f : FrameId} {x y : String} {v : Datum}

theorem frame?_withExtra (s : Store) (c : FrameId) (y : String) (v : Datum) (g : FrameId) :
    (s.withExtra c y v).frame? g =
      if c = g then (s.frame? g).map fun frame => { frame with bindings := (y, v) :: frame.bindings }
      else s.frame? g :=
  frame?_update ..

@[simp] theorem size_withExtra (s : Store) (c : FrameId) (y : String) (v : Datum) :
    (s.withExtra c y v).size = s.size := size_update ..

theorem withExtra_push (hc : c < s.size) (bindings : Bindings) (outer : Option FrameId) :
    (s.withExtra c y v).push bindings outer = (s.push bindings outer).withExtra c y v := by
  refine ext_frame? fun g => ?_
  rw [frame?_withExtra, frame?_push, frame?_push, size_withExtra]
  by_cases hg : g = s.size
  · have hne : c ≠ g := by
      rintro rfl
      exact absurd hc (by rw [hg]; exact lt_irrefl _)
    rw [if_pos hg, if_pos hg, if_neg hne]
  · rw [if_neg hg, if_neg hg, frame?_withExtra]

/-- a binding of another name leaves the extra one where it is -/
theorem withExtra_define (hx : f = c → x ≠ y) (u : Datum) :
    (s.withExtra c y v).define f x u = (s.define f x u).withExtra c y v := by
  refine ext_frame? fun g => ?_
  rw [frame?_withExtra, frame?_define, frame?_define, frame?_withExtra]
  by_cases hc : c = g
  · by_cases hf : f = g
    · have hne : y ≠ x := Ne.symm (hx (hf.trans hc.symm))
      rw [if_pos hc, if_pos hf, if_pos hc, if_pos hf]
      cases s.frame? g with
      | none => rfl
      | some frame => simp [Bindings.assign, hne]
    · rw [if_pos hc, if_neg hf, if_pos hc, if_neg hf]
  · rw [if_neg hc, if_neg hc]

/-- the extra binding is not found under another name, and not from outside `c` -/
theorem lookup?_withExtra (hs : s.WellFormed) (hf : f < s.size) (hx : s.Under c f → x ≠ y) :
    (s.withExtra c y v).lookup? f x = s.lookup? f x := by
  refine hs.induct (motive := fun g => (s.Under c g → x ≠ y) → (s.withExtra c y v).lookup? g x = s.lookup? g x) ?_ hf hx
  intro g frame hg ih hx
  have hlt : ∀ outer, frame.outer = some outer → outer < g := fun outer => hs.outer_lt g frame outer hg
  have haround : (frame.outer.bind fun outer => (s.withExtra c y v).lookup? outer x)
      = frame.outer.bind fun outer => s.lookup? outer x := by
    cases houter : frame.outer with
    | none => rfl
    | some outer => exact ih outer houter fun hunder => hx (.inner hg houter hunder)
  rw [lookup?_eq hg hlt]
  by_cases hc : c = g
  · have hne : y ≠ x := by
      subst hc
      exact Ne.symm (hx .self)
    have hextra : (s.withExtra c y v).frame? g = some { frame with bindings := (y, v) :: frame.bindings } := by
      rw [frame?_withExtra, if_pos hc, hg]
      rfl
    rw [lookup?_eq hextra hlt, Bindings.value?_cons, if_neg hne, haround]
  · have hextra : (s.withExtra c y v).frame? g = some frame := by rw [frame?_withExtra, if_neg hc, hg]
    rw [lookup?_eq hextra hlt, haround]

end Store

/-! ## One level of evaluation -/

namespace Evaluator

variable {α β : Type} {c : FrameId} {y : String} {v : Datum} {w : World}

/-- `x` does the same whether `c` has the extra binding or not, and keeps code that mentions `y` out of `c` -/
def Invisible (c : FrameId) (y : String) (v : Datum) (x : Run α) (w : World) (ok : Store → α → Prop) : Prop :=
  Effect.CoupledAt (w.After fun w' v' => w'.store.Unaware c y ∧ v' = w'.withExtra c y v) Eq
    (fun s a b => a = b ∧ ok s a) x x w (w.withExtra c y v)

theorem Invisible.bind {x : Run α} {next : α → Run β} {ok : Store → α → Prop} {done : Store → β → Prop}
    (h : Invisible c y v x w ok)
    (hnext : ∀ a w', w.store.Stays c y w'.store → ok w'.store a → Invisible c y v (next a) w' done) :
    Invisible c y v (x >>= next) w done := by
  refine Effect.CoupledAt.bind_after h ?_
  rintro a _ w' _ hst ⟨hunaware, rfl⟩ ⟨rfl, ha⟩
  exact hnext a w' ⟨hst, hunaware⟩ ha

/-- the ends of a computation, seen from the run without the extra binding -/
theorem invisible_of_endsIn {x : Run α} {ok : Store → α → Prop}
    (hsame : x (w.withExtra c y v) = ((x w).1, (x w).2.withExtra c y v))
    (h : x.EndsIn (Store.Stays c y) (fun _ => True) w ok) : Invisible c y v x w ok := by
  cases hx : x w with
  | mk r w' =>
    rw [hx] at hsame
    cases r with
    | ok a =>
      obtain ⟨hstays, ha⟩ := h.of_ok hx
      exact Or.inl ⟨a, w', a, _, hx, hsame, ⟨hstays.grows, hstays.unaware, rfl⟩, rfl, ha⟩
    | error fault =>
      obtain ⟨hstays, -⟩ := h.of_error hx
      exact Or.inr ⟨fault, w', fault, _, hx, hsame, ⟨hstays.grows, hstays.unaware, rfl⟩, rfl⟩

/-- the run with the extra binding -/
theorem Invisible.apply_withExtra {x : Run α} {ok : Store → α → Prop} (h : Invisible c y v x w ok) :
    x (w.withExtra c y v) = ((x w).1, (x w).2.withExtra c y v) := by
  rcases h with ⟨a, w', _, _, hx, hextra, ⟨-, -, rfl⟩, rfl, -⟩ | ⟨fault, w', _, _, hx, hextra, ⟨-, -, rfl⟩, rfl⟩
  · rw [hx, hextra]
  · rw [hx, hextra]

theorem invisible_pure (h : w.store.Unaware c y) {ok : Store → α → Prop} {a : α} (ha : ok w.store a) :
    Invisible c y v (pure a) w ok :=
  Effect.coupledAt_pure (.refl ⟨h, rfl⟩) ⟨rfl, ha⟩

theorem invisible_fail (h : w.store.Unaware c y) (fault : Fault) (ok : Store → α → Prop) :
    Invisible c y v (Effect.fail fault) w ok :=
  Effect.coupledAt_fail (.refl ⟨h, rfl⟩) rfl

theorem invisible_noteAll (h : w.store.Unaware c y) (notes : List Note) :
    Invisible c y v (Effect.noteAll notes) w fun _ _ => True :=
  Effect.coupledAt_noteAll ⟨.refl _, h, rfl⟩ ⟨rfl, trivial⟩

theorem invisible_define (h : w.store.Unaware c y) {f : FrameId} {x : String} (hx : f = c → x ≠ y) {u : Datum}
    (hu : u.Unaware c y w.store) : Invisible c y v (Effect.define f x u) w fun _ _ => True := by
  refine invisible_of_endsIn ?_ ?_
  · rw [Effect.define_apply, Effect.define_apply]
    simp only [World.withExtra, Store.withExtra_define hx]
  · exact Effect.endsIn_ok rfl (h.define f x hu) trivial

theorem invisible_newFrame (h : w.store.Unaware c y) {bindings : Bindings}
    (hbindings : bindings.All (Datum.Unaware c y w.store)) {outer : FrameId} (houter : outer < w.store.size) :
    Invisible c y v (Effect.newFrame bindings (some outer)) w
      fun s inner => inner < s.size ∧ inner ≠ c ∧ (s.Under c inner → w.store.Under c outer) := by
  refine invisible_of_endsIn ?_ ?_
  · rw [Effect.newFrame_apply, Effect.newFrame_apply]
    simp only [World.withExtra, Store.withExtra_push h.frame_lt, Store.size_withExtra]
  · refine Effect.endsIn_ok rfl (h.push hbindings houter) ⟨by simp, ?_, fun hunder => ?_⟩
    · exact Nat.ne_of_gt h.frame_lt
    · exact Store.under_of_under_push hunder h.wellFormed h.frame_lt houter

theorem invisible_lookup (h : w.store.Unaware c y) {f : FrameId} (hf : f < w.store.size) {x : String}
    (hx : w.store.Under c f → x ≠ y) : Invisible c y v (Run.lookup f x) w (Datum.Unaware c y) := by
  have hsame : (w.withExtra c y v).store.lookup? f x = (w.store.lookup? f x).map id := by
    rw [Option.map_id, id]
    exact Store.lookup?_withExtra h.wellFormed hf hx
  exact Run.lookup_coupledAt (.refl ⟨h, rfl⟩) hsame (fun _ hu => ⟨rfl, h.values.lookup hu⟩) rfl

section

variable {ev : Evaluator} (hev : ∀ d f w, w.store.Admits c y f [d] → Invisible c y v (ev d f) w (Datum.Unaware c y))

include hev

theorem each_invisible {f : FrameId} {ds : List Datum} (h : w.store.Admits c y f ds) :
    Invisible c y v (ev.each f ds) w fun s vs => ∀ u ∈ vs, u.Unaware c y s := by
  induction ds generalizing w with
  | nil => exact invisible_pure h.unaware (by simp)
  | cons d ds ih =>
    refine (hev d f w h.head).bind ?_
    intro u w₁ h₁ hu
    refine (ih (h.tail.later h₁)).bind ?_
    intro us w₂ h₂ hus
    have hu₂ := hu.mono h₂.grows h₁.unaware.wellFormed
    exact invisible_pure h₂.unaware (List.forall_mem_cons.2 ⟨hu₂, hus⟩)

theorem sequence_invisible {f : FrameId} {ds : List Datum} (h : w.store.Admits c y f ds) {last : Datum}
    (hlast : last.Unaware c y w.store) : Invisible c y v (ev.sequence f last ds) w (Datum.Unaware c y) := by
  induction ds generalizing w last with
  | nil => exact invisible_pure h.unaware hlast
  | cons d ds ih =>
    refine (hev d f w h.head).bind ?_
    intro u w₁ h₁ hu
    exact ih (h.tail.later h₁) hu

theorem fill_invisible {f : FrameId} {bindings : List Datum} (h : w.store.AdmitsBindings c y f bindings) :
    Invisible c y v (ev.fill f bindings) w fun _ _ => True := by
  induction bindings generalizing w with
  | nil => exact invisible_pure h.unaware trivial
  | cons b bindings ih =>
    unfold Evaluator.fill
    split
    · exact invisible_fail h.unaware _ _
    · next x body hb =>
      rw [binding?_eq_some_iff] at hb
      subst hb
      refine (hev body f w h.body).bind ?_
      intro u w₁ h₁ hu
      refine (invisible_define h₁.unaware (fun heq => absurd heq h.frame_ne) hu).bind ?_
      intro _ w₂ h₂ _
      exact ih (h.tail.later (h₁.trans h₂))

theorem call_invisible (room : Nat) (h : w.store.Unaware c y) {function : Datum}
    (hfunction : function.Unaware c y w.store) {args : List Datum} (hargs : ∀ a ∈ args, a.Unaware c y w.store) :
    Invisible c y v (ev.call room function args) w (Datum.Unaware c y) := by
  unfold Evaluator.call
  split
  · next params body captured =>
    obtain ⟨⟨hcaptured, hsilent⟩, hbody⟩ := Datum.allClosures_closure.1 hfunction
    have hbindings := Bindings.all_ofPairs (Bindings.all_ofParams Datum.allClosures_absent hargs params)
    refine (invisible_newFrame h hbindings hcaptured).bind ?_
    intro inner w₁ h₁ hinner
    obtain ⟨hlt, -, hunder⟩ := hinner
    refine sequence_invisible hev ⟨h₁.unaware, hlt, fun d hd => ?_, fun hin => hsilent (hunder hin)⟩
      Datum.allClosures_absent
    exact Datum.Unaware.mono (hbody d hd) h₁.grows h.wellFormed
  · next b =>
    refine invisible_of_endsIn ?_ ?_
    · unfold Builtin.call
      split <;> rfl
    · refine Builtin.call_endsIn h.stays (fun u hu => ?_) (fun _ _ => trivial) trivial
      exact Datum.allClosures_result hargs hu
  · exact invisible_fail h _ _

theorem block_invisible (room : Nat) {f : FrameId} {d body : Datum} {bindings : List Datum}
    (h : w.store.Admits c y f [d]) (hd : d.HasShape (.block bindings body)) :
    Invisible c y v ((Shape.block bindings body).perform room ev f) w (Datum.Unaware c y) := by
  have hparts : ∀ e ∈ body :: bindings, e.Unaware c y w.store := by
    intro e he
    refine Datum.AllClosures.part (h.closures d (by simp)) ?_
    rw [hd.shape_eq]
    exact he
  rw [List.forall_mem_cons] at hparts
  have hsilent := fun hunder => hd.not_mentions_block (h.silent hunder d (by simp))
  refine (invisible_newFrame h.unaware Bindings.all_nil h.frame_lt).bind ?_
  intro inner w₁ h₁ hinner
  obtain ⟨hlt, hne, hunder⟩ := hinner
  have hbindings : w₁.store.AdmitsBindings c y inner bindings := by
    refine ⟨h₁.unaware, hlt, hne, fun b hb => ?_, fun hin => (hsilent (hunder hin)).2⟩
    exact (hparts.2 b hb).mono h₁.grows h.unaware.wellFormed
  have hbody : w₁.store.Admits c y inner [body] := by
    refine ⟨h₁.unaware, hlt, fun e he => ?_, fun hin e he => ?_⟩
    · rw [List.mem_singleton.1 he]
      exact hparts.1.mono h₁.grows h.unaware.wellFormed
    · rw [List.mem_singleton.1 he]
      exact (hsilent (hunder hin)).1
  refine (fill_invisible hev hbindings).bind ?_
  intro _ w₂ h₂ _
  exact hev body inner w₂ (hbody.later h₂)

theorem perform_invisible (room : Nat) {f : FrameId} {d : Datum} (h : w.store.Admits c y f [d]) :
    Invisible c y v (d.shape.perform room ev f) w (Datum.Unaware c y) := by
  have hd := d.hasShape_shape
  have hself : d.Unaware c y w.store := h.closures d (by simp)
  have hsilent : w.store.Under c f → ¬ d.Mentions y := fun hunder => h.silent hunder d (by simp)
  cases hs : d.shape with
  | value u => exact invisible_pure h.unaware (hself.of_value hs)
  | name x =>
    rw [hs] at hd
    rw [Shape.perform]
    refine invisible_lookup h.unaware h.frame_lt fun hunder => ?_
    exact (hd.not_mentions (hsilent hunder)).1 x rfl
  | items head args =>
    rw [hs] at hd
    have hparts := h.parts hd rfl
    refine (hev head f w hparts.head).bind ?_
    intro function w₁ h₁ hfunction
    refine (each_invisible hev (hparts.tail.later h₁)).bind ?_
    intro values w₂ h₂ hvalues
    have hfunction₂ := hfunction.mono h₂.grows h₁.unaware.wellFormed
    split
    · exact call_invisible hev room h₂.unaware hfunction₂ hvalues
    · exact invisible_pure h₂.unaware (Datum.allClosures_list.2 (List.forall_mem_cons.2 ⟨hfunction₂, hvalues⟩))
  | define x body =>
    rw [hs] at hd
    have hparts := h.parts hd rfl
    refine (hev body f w hparts.head).bind ?_
    intro u w₁ h₁ hu
    have hx : f = c → x ≠ y := by
      rintro rfl
      exact (hd.not_mentions (hsilent .self)).2.1 x body rfl
    refine (invisible_define h₁.unaware hx hu).bind ?_
    intro _ w₂ h₂ _
    exact invisible_pure h₂.unaware (hu.mono h₂.grows h₁.unaware.wellFormed)
  | conditional condition consequent alternative =>
    rw [hs] at hd
    have hparts := h.parts hd rfl
    refine (hev condition f w hparts.head).bind ?_
    intro u w₁ h₁ _
    have hrest := hparts.tail.later h₁
    split
    · exact hev consequent f w₁ hrest.head
    · cases alternative with
      | none => exact invisible_pure h₁.unaware Datum.allClosures_absent
      | some alternative => exact hev alternative f w₁ hrest.tail.head
  | block bindings body =>
    rw [hs] at hd
    exact block_invisible hev room h hd
  | function params body =>
    have hbody : ∀ e ∈ body, e.Unaware c y w.store := by
      intro e he
      refine Datum.AllClosures.part hself ?_
      rw [hs]
      exact he
    rw [hs] at hd
    refine invisible_pure h.unaware (Datum.allClosures_closure.2 ⟨⟨h.frame_lt, fun hunder => ?_⟩, hbody⟩)
    exact hd.not_mentions_function (hsilent hunder)
  | malformed fault => exact invisible_fail h.unaware _ _

end

end Evaluator

theorem Datum.evaluate_invisible {c : FrameId} {y : String} {v : Datum} (room depth : Nat) {d : Datum} {f : FrameId}
    {w : World} (h : w.store.Admits c y f [d]) :
    Evaluator.Invisible c y v (d.evaluate room depth f) w (Datum.Unaware c y) := by
  induction depth generalizing d f w with
  | zero => exact Evaluator.invisible_fail h.unaware _ _
  | succ depth ih =>
    rw [evaluate_succ, evaluateWith_eq]
    refine (Evaluator.invisible_noteAll h.unaware _).bind ?_
    intro _ w₁ h₁ _
    exact Evaluator.perform_invisible (fun d f w hd => ih hd) room (h.later h₁)

/-! ## Main statement -/

/-- a new frame that binds `y` is the new frame that binds nothing, with the extra binding -/
theorem Store.push_eq_withExtra (s : Store) (y : String) (v : Datum) (outer : Option FrameId) :
    s.push [(y, v)] outer = (s.push [] outer).withExtra s.size y v := by
  refine ext_frame? fun g => ?_
  rw [frame?_withExtra, frame?_push, frame?_push]
  by_cases hg : g = s.size
  · rw [if_pos hg, if_pos hg, if_pos hg.symm]
    rfl
  · rw [if_neg hg, if_neg hg, if_neg (Ne.symm hg)]

/-- **Scoping is lexical.** In a reachable store, let `c` be a new frame inside `f`. A datum that does not mention `y`
comes to the same and prints the same whether `c` binds `y` or binds nothing, also if functions that it calls mention
`y`; the stores in the end differ by the binding of `y` in `c`, which is there in one and not in the other. -/
theorem evaluation_is_lexical {s : Store} (hs : s.Reachable) {f : FrameId} (hf : f < s.size) {e : Datum} (he : e.Parsed)
    {y : String} (hy : ¬ e.Mentions y) (v : Datum) (room depth : Nat) (printed : String) (notes : Array Note) :
    ∃ r w, e.evaluate room depth s.size ⟨s.push [] (some f), printed, notes⟩ = (r, w) ∧
      e.evaluate room depth s.size ⟨s.push [(y, v)] (some f), printed, notes⟩ = (r, w.withExtra s.size y v) ∧
      ∀ frame, w.store.frame? s.size = some frame → frame.bindings.value? y = none := by
  have hwell : (s.push [] (some f)).WellFormed := by
    refine hs.wellFormed.push Bindings.all_nil fun g hg => ?_
    cases hg
    exact hf
  have hc : s.size < (s.push [] (some f)).size := by simp
  have hunaware : (s.push [] (some f)).Unaware s.size y := by
    refine ⟨hwell, hc, (hs.wellFormed.within.push Bindings.all_nil _).mono fun d hd => ?_⟩
    exact hd.unaware le_rfl hwell hc
  have hadmits : (s.push [] (some f)).Admits s.size y s.size [e] := by
    refine ⟨hunaware, hc, fun d hd => ?_, fun _ d hd => ?_⟩
    · rw [List.mem_singleton.1 hd]
      exact he.allClosures
    · rw [List.mem_singleton.1 hd]
      exact hy
  have hinvisible : Evaluator.Invisible s.size y v (e.evaluate room depth s.size) ⟨s.push [] (some f), printed, notes⟩
      (Datum.Unaware s.size y) :=
    Datum.evaluate_invisible room depth hadmits
  have hlocal : (s.push [] (some f)).ChangesOnly s.size e.Defines _ :=
    Datum.evaluate_changesOnly room depth e s.size ⟨s.push [] (some f), printed, notes⟩
  refine ⟨_, _, rfl, ?_, fun frame hframe => ?_⟩
  · rw [Store.push_eq_withExtra]
    exact hinvisible.apply_withExtra
  · -- the datum does not define `y`, so its frame still does not bind it
    have hnew : (s.push [] (some f)).frame? s.size = some ⟨[], some f⟩ := by rw [Store.frame?_push, if_pos rfl]
    obtain ⟨frame', hframe', -, -, hvalues⟩ := hlocal.here _ hnew
    rw [hframe] at hframe'
    cases hframe'
    exact hvalues y fun hdefines => hy hdefines.mentions

/-- a call of a function whose body is `y`, from a frame that binds `y` otherwise -/
theorem call_ignores_caller :
    let s := ((Store.empty.push Builtin.bindings none).define 0 "y" (.text "outer")).define 0 "g"
      (.closure [] [.identifier "y"] 0)
    let e := Datum.list [.identifier "g"]
    s.Reachable ∧ 0 < s.size ∧ e.Parsed ∧ ¬ e.Mentions "y" ∧
      ∃ r w, e.evaluate 0 3 1 ⟨s.push [] (some 0), "", #[]⟩ = (r, w) ∧
        e.evaluate 0 3 1 ⟨s.push [("y", .text "inner")] (some 0), "", #[]⟩
          = (r, w.withExtra 1 "y" (.text "inner")) := by
  intro s e
  have hg : (Datum.closure [] [.identifier "y"] 0).Within 1 := by
    simp [Datum.Within, Datum.allClosures_closure, Datum.identifier]
  have hs : s.Reachable := (Store.Reachable.empty.newRoot.define 0 "y" (Datum.allClosures_text _)).define 0 "g" hg
  have hsize : 0 < s.size := by decide
  have he : e.Parsed := .list (by simp [Datum.identifier, Datum.Parsed.atom])
  have hy : ¬ e.Mentions "y" := by
    intro h
    rcases Datum.mentions_cons.1 h with ⟨-, h⟩ | ⟨d, hmem, -⟩
    · exact absurd (Datum.mentions_identifier.1 h) (by decide)
    · simp at hmem
  obtain ⟨r, w, hbare, hextra, -⟩ := evaluation_is_lexical hs hsize he hy (.text "inner") 0 3 "" #[]
  exact ⟨hs, hsize, he, hy, r, w, hbare, hextra⟩

end FrameLisp
