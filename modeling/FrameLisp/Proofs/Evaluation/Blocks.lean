/-
Let forms as calls.

A let form fills one new frame with its names, each value evaluated in that frame as it is by then. Instead of it a
program may call functions of one parameter each, one inside the body of the other (`Datum.letAsCalls`): every call
makes a frame of its own, inside the frame of the call before. Where the values declare nothing (`Datum.Declares`),
the two come to the same (`let_form_is_nested_calls`).

The let form's frame is spread over the frames of the calls made so far, and it is sealed, so it can be spread over the
next one when the next value is there (`Filling.bind`). That goes on for all bindings, and then the body is evaluated in
both stores (`Evaluator.fill_endAlike`). The depths of the two differ, as calls are nested more deeply, but limits
only cut runs short (`Datum.letAsCalls_cuts`, `Evaluator.calls_cuts`), so both are compared where no limit is reached.
-/
import FrameLisp.Proofs.Evaluation.Limits
import FrameLisp.Proofs.Evaluation.Sealed
import FrameLisp.Proofs.Evaluation.Spread

namespace FrameLisp

/-! ## The two programs -/

namespace Datum

/-- a let form that binds names to the values of data -/
def letForm (bindings : List (String × Datum)) (body : Datum) : Datum :=
  ofForm .block [.list (bindings.map fun b => .list [identifier b.1, b.2]), body]

/-- a lambda form -/
def lambda (params : List String) (body : Datum) : Datum :=
  ofForm .function [.list (params.map identifier), body]

/-- calls of functions of one parameter, one inside the body of the other -/
def nestedCalls : List (String × Datum) → Datum → Datum
  | [], body => body
  | b :: bindings, body => .list [lambda [b.1] (nestedCalls bindings body), b.2]

/-- the calls instead of a let form; a function without parameters when there are no bindings -/
def letAsCalls : List (String × Datum) → Datum → Datum
  | [], body => .list [lambda [] body]
  | b :: bindings, body => nestedCalls (b :: bindings) body

theorem letForm_shape (bindings : List (String × Datum)) (body : Datum) :
    (letForm bindings body).HasShape (.block (bindings.map fun b => .list [identifier b.1, b.2]) body) :=
  .block _ body

theorem lambda_shape (params : List String) (body : Datum) :
    (lambda params body).HasShape (.function params [body]) :=
  .function params [body]

theorem call_shape (params : List String) (body : Datum) (args : List Datum) :
    (Datum.list (lambda params body :: args)).HasShape (.items (lambda params body) args) := by
  refine .items (fun form hform => ?_) args
  cases hform

/-- neither of the two defines a name in the frame at hand -/
theorem letForm_not_defines (bindings : List (String × Datum)) (body : Datum) (x : String) :
    ¬ (letForm bindings body).Defines x := by
  rw [defines_iff, (letForm_shape bindings body).shape_eq]
  simp [Shape.opensFrame]

theorem call_not_defines {params : List String} {args : List Datum} (hargs : ∀ a ∈ args, ¬ a.Declares) (body : Datum)
    (x : String) : ¬ (Datum.list (lambda params body :: args)).Defines x := by
  have hlambda : ¬ (lambda params body).Defines x := by
    rw [defines_iff, (lambda_shape params body).shape_eq]
    simp [Shape.opensFrame]
  rw [defines_iff, (call_shape params body args).shape_eq]
  rintro (⟨_, h⟩ | ⟨-, e, he, hx⟩)
  · cases h
  · rcases List.mem_cons.1 he with rfl | he
    · exact hlambda hx
    · exact hargs e he hx.declares

theorem letAsCalls_not_defines {bindings : List (String × Datum)} (hbindings : ∀ b ∈ bindings, ¬ b.2.Declares)
    (body : Datum) (x : String) : ¬ (letAsCalls bindings body).Defines x := by
  cases bindings with
  | nil => exact call_not_defines (by simp) body x
  | cons b bindings =>
    refine call_not_defines (fun a ha => ?_) _ x
    rw [List.mem_singleton.1 ha]
    exact hbindings b List.mem_cons_self

/-! ## How the two are evaluated -/

/-- the call of a function where it is written -/
theorem evaluate_call (room depth : Nat) (params : List String) (body : Datum) (args : List Datum) (f : FrameId) :
    evaluate room (depth + 2) (.list (lambda params body :: args)) f = (do
      Effect.noteAll (lambda params body).entered
      let values ← (evaluate room (depth + 1)).each f args
      let inner ← Effect.newFrame (Bindings.ofPairs (Bindings.ofParams params values)) (some f)
      evaluate room (depth + 1) body inner) := by
  have hentered : (Datum.list (lambda params body :: args)).entered = [] := rfl
  have hnotes : (Effect.noteAll [] : Run Unit) = pure () := by
    funext w
    rw [Effect.noteAll_apply]
    simp
  rw [evaluate_succ, evaluateWith_eq, hentered, hnotes, pure_bind, (call_shape params body args).shape_eq]
  simp only [Shape.perform]
  rw [evaluate_succ room depth (lambda params body) f, evaluateWith_eq, (lambda_shape params body).shape_eq]
  simp only [Shape.perform, bind_assoc, pure_bind, isFunction, if_true, Evaluator.call, Evaluator.callClosure,
    Evaluator.sequence, bind_pure]

/-- the call of a function of one parameter -/
theorem evaluate_call_one (room depth : Nat) (x : String) (body e : Datum) (f : FrameId) :
    evaluate room (depth + 2) (.list [lambda [x] body, e]) f = (do
      Effect.noteAll (lambda [x] body).entered
      let v ← evaluate room (depth + 1) e f
      let inner ← Effect.newFrame (Bindings.ofPairs [(x, v)]) (some f)
      evaluate room (depth + 1) body inner) := by
  rw [evaluate_call]
  simp only [Evaluator.each, bind_assoc, pure_bind, Bindings.ofParams]

/-- the call of a function without parameters -/
theorem evaluate_call_none (room depth : Nat) (body : Datum) (f : FrameId) :
    evaluate room (depth + 2) (.list [lambda [] body]) f = (do
      Effect.noteAll (lambda [] body).entered
      let inner ← Effect.newFrame [] (some f)
      evaluate room (depth + 1) body inner) := by
  rw [evaluate_call]
  rfl

theorem evaluate_letForm (room depth : Nat) (bindings : List (String × Datum)) (body : Datum) (f : FrameId) :
    evaluate room (depth + 1) (letForm bindings body) f = (do
      Effect.noteAll (letForm bindings body).entered
      let inner ← Effect.newFrame [] (some f)
      (evaluate room depth).fill inner (bindings.map fun b => .list [identifier b.1, b.2])
      evaluate room depth body inner) := by
  rw [evaluate_succ, evaluateWith_eq, (letForm_shape bindings body).shape_eq]
  rfl

end Datum

namespace Evaluator

/-- the values one after another, each bound in a new frame inside the one before, and then the body -/
def chained (ev : Evaluator) : FrameId → List (String × Datum) → Datum → Run Datum
  | f, [], body => ev body f
  | f, (x, e) :: bindings, body => do
    Effect.noteAll (Datum.lambda [x] (Datum.nestedCalls bindings body)).entered
    let v ← ev e f
    let inner ← Effect.newFrame (Bindings.ofPairs [(x, v)]) (some f)
    ev.chained inner bindings body

/-- what calls instead of a let form do, where all of their parts are evaluated equally deep -/
def calls (ev : Evaluator) (f : FrameId) : List (String × Datum) → Datum → Run Datum
  | [], body => do
    Effect.noteAll (Datum.lambda [] body).entered
    let inner ← Effect.newFrame [] (some f)
    ev body inner
  | b :: bindings, body => ev.chained f (b :: bindings) body

end Evaluator

open Run

namespace Evaluator

variable {room small large : Nat}

theorem chained_mono (hle : small ≤ large) (f : FrameId) (bindings : List (String × Datum)) (body : Datum) :
    ((Datum.evaluate room small).chained f bindings body).Cuts
      ((Datum.evaluate room large).chained f bindings body) := by
  induction bindings generalizing f with
  | nil => exact body.evaluate_cuts le_rfl hle f
  | cons b bindings ih =>
    refine (cuts_noteAll _).bind fun _ => ?_
    refine (b.2.evaluate_cuts le_rfl hle f).bind fun v => ?_
    exact (cuts_of_silent fun _ => rfl).bind fun inner => ih inner

theorem calls_mono (hle : small ≤ large) (f : FrameId) (bindings : List (String × Datum)) (body : Datum) :
    ((Datum.evaluate room small).calls f bindings body).Cuts ((Datum.evaluate room large).calls f bindings body) := by
  cases bindings with
  | nil =>
    refine (cuts_noteAll _).bind fun _ => ?_
    exact (cuts_of_silent fun _ => rfl).bind fun inner => body.evaluate_cuts le_rfl hle inner
  | cons b bindings => exact chained_mono hle f (b :: bindings) body

/-- the calls are nested one level more deeply with each binding -/
theorem chained_cuts (n : Nat) (f : FrameId) (bindings : List (String × Datum)) (body : Datum) :
    ((Datum.evaluate room n).chained f bindings body).Cuts
      ((Datum.nestedCalls bindings body).evaluate room (n + bindings.length + 1) f) := by
  induction bindings generalizing f with
  | nil => exact body.evaluate_cuts le_rfl (Nat.le_succ n) f
  | cons b bindings ih =>
    have hn : n + (b :: bindings).length + 1 = n + bindings.length + 2 := by rw [List.length_cons]; omega
    rw [hn, Datum.nestedCalls, Datum.evaluate_call_one, chained]
    refine (cuts_noteAll _).bind fun _ => ?_
    refine (b.2.evaluate_cuts le_rfl (by omega) f).bind fun v => ?_
    exact (cuts_of_silent fun _ => rfl).bind fun inner => ih inner

theorem calls_cuts (n : Nat) (f : FrameId) (bindings : List (String × Datum)) (body : Datum) :
    ((Datum.evaluate room n).calls f bindings body).Cuts
      ((Datum.letAsCalls bindings body).evaluate room (n + bindings.length + 2) f) := by
  cases bindings with
  | nil =>
    rw [Datum.letAsCalls, Datum.evaluate_call_none, calls]
    refine (cuts_noteAll _).bind fun _ => ?_
    exact (cuts_of_silent fun _ => rfl).bind fun inner => body.evaluate_cuts le_rfl (by simp) inner
  | cons b bindings =>
    refine (chained_cuts n f (b :: bindings) body).trans ?_
    exact Datum.evaluate_cuts le_rfl (Nat.le_succ _) _ f

end Evaluator

namespace Datum

variable {room : Nat}

theorem nestedCalls_cuts (n : Nat) (f : FrameId) (bindings : List (String × Datum)) (body : Datum) :
    (evaluate room n (nestedCalls bindings body) f).Cuts
      ((evaluate room (n + bindings.length)).chained f bindings body) := by
  induction bindings generalizing n f with
  | nil => exact body.evaluate_cuts le_rfl (Nat.le_add_right n 0) f
  | cons b bindings ih =>
    have hn : n + (b :: bindings).length = n + 1 + bindings.length := by rw [List.length_cons]; omega
    refine Cuts.trans ((nestedCalls (b :: bindings) body).evaluate_cuts le_rfl (Nat.le_add_right n 2) f) ?_
    rw [nestedCalls, evaluate_call_one, hn, Evaluator.chained]
    refine (cuts_noteAll _).bind fun _ => ?_
    refine (b.2.evaluate_cuts le_rfl (by omega) f).bind fun v => ?_
    exact (cuts_of_silent fun _ => rfl).bind fun inner => ih (n + 1) inner

theorem letAsCalls_cuts (n : Nat) (f : FrameId) (bindings : List (String × Datum)) (body : Datum) :
    (evaluate room n (letAsCalls bindings body) f).Cuts
      ((evaluate room (n + bindings.length + 1)).calls f bindings body) := by
  cases bindings with
  | nil =>
    refine Cuts.trans ((letAsCalls [] body).evaluate_cuts le_rfl (Nat.le_add_right n 2) f) ?_
    rw [letAsCalls, evaluate_call_none, Evaluator.calls]
    refine (cuts_noteAll _).bind fun _ => ?_
    exact (cuts_of_silent fun _ => rfl).bind fun inner => body.evaluate_cuts le_rfl (by simp) inner
  | cons b bindings =>
    refine Cuts.trans (nestedCalls_cuts n f (b :: bindings) body) ?_
    exact Evaluator.chained_mono (Nat.le_succ _) f (b :: bindings) body

end Datum

/-! ## The two stores while names are bound -/

/-- the frame `c` of a let form is spread over the frames of calls; older frames are the same in both stores, and newer
ones stand alone -/
structure Filling (p : Spreading) (c : FrameId) (w v : World) : Prop where
  spread : World.Spread p w v
  isSealed : w.store.Sealed c
  live : c ∈ p.live
  old : ∀ g, g < c → g ∈ p.live ∧ p.number g = g ∧ p.level g = [g]
  alone : ∀ g ∈ p.live, c < g → p.Alone g

namespace Filling

variable {p : Spreading} {c : FrameId} {w v : World} {d u : Datum}

theorem admits (h : Filling p c w v) (hd : d.Within c) (hplace : p.Alone c ∨ ∀ x, ¬ d.Defines x) : p.Admits c d :=
  ⟨h.live, Datum.AllClosures.mono hd fun _ _ g hg => (h.old g hg).1, hplace⟩

/-- code that declares nothing may be evaluated without leaving traces of `c` -/
theorem guards (h : Filling p c w v) (hd : d.Within c) (hquiet : ¬ d.Declares) : w.store.Guards c c [d] := by
  refine ⟨h.isSealed, h.isSealed.lt, fun e he => ?_, fun _ e he => ?_⟩
  · rw [List.mem_singleton.1 he]
    exact hd.outside h.isSealed.wellFormed h.isSealed.lt.le
  · rw [List.mem_singleton.1 he]
    exact hquiet

/-- code that was there before is the same -/
theorem renumber_eq (h : Filling p c w v) (hd : d.Within c) : d.renumber p.number = d :=
  Datum.renumber_eq_self (Datum.AllClosures.mono hd fun _ _ g hg => (h.old g hg).2.1)

/-- no two live frames are seen as one -/
theorem injOn (h : Filling p c w v) (hc : p.Alone c) : Set.InjOn p.number p.live := by
  have halone : ∀ g ∈ p.live, c ≤ g → p.Alone g := by
    intro g hg hle
    rcases hle.lt_or_eq with hlt | rfl
    · exact h.alone g hg hlt
    · exact hc
  have hself : ∀ g ∈ p.live, p.number g ∈ p.level g := by
    intro g hg
    by_cases hlt : g < c
    · rw [(h.old g hlt).2.1, (h.old g hlt).2.2]
      exact List.mem_singleton_self g
    · obtain ⟨rest, hrest⟩ := (halone g hg (Nat.le_of_not_lt hlt)).first
      rw [hrest]
      exact List.mem_cons_self
  intro g hg r hr heq
  by_contra hne
  by_cases hlt : g < c
  · by_cases hltr : r < c
    · rw [(h.old g hlt).2.1, (h.old r hltr).2.1] at heq
      exact hne heq
    · exact (halone r hr (Nat.le_of_not_lt hltr)).apart g hg hne (heq ▸ hself g hg)
  · exact (halone g hg (Nat.le_of_not_lt hlt)).apart r hr (Ne.symm hne) (heq ▸ hself r hr)

/-- **One binding**: the let form binds the value in its frame, and the call binds it in a new one -/
theorem bind (h : Filling p c w v) (x : String) (hu : u.Outside w.store c) (hheld : p.Holds u) :
    let q := p.shift w.store v.store c
    Filling q c { w with store := w.store.define c x u }
        { v with store := v.store.push (Bindings.ofPairs [(x, u.renumber p.number)]) (some (p.number c)) } ∧
      q.Alone c ∧ q.number c = v.store.size := by
  intro q
  have hspread := h.spread.store
  have hs := h.isSealed
  refine ⟨⟨⟨hspread.shift hs h.live x hu hheld, h.spread.printed⟩, hs.define c x hu, Or.inl rfl, fun g hg => ?_,
    fun g hg hlt => ?_⟩, hspread.shift_alone_self hs h.live, Spreading.shift_self.1⟩
  · obtain ⟨hlive, hnumber, hlevel⟩ := h.old g hg
    obtain ⟨hnumber', hlevel'⟩ := Spreading.shift_old (p := p) (t := v.store) (Nat.ne_of_lt hg) (hg.trans hs.lt)
    refine ⟨Or.inr ⟨hlive, fun hin => ?_⟩, hnumber'.trans hnumber, hlevel'.trans hlevel⟩
    exact Nat.not_le.2 hg (Store.le_of_mem_chain hs.wellFormed (hg.trans hs.lt) hin)
  · have hne : g ≠ c := Nat.ne_of_gt hlt
    obtain ⟨hlive, -⟩ := hg.resolve_left hne
    by_cases hsize : g < w.store.size
    · exact hspread.shift_alone hs h.live hlive hne hsize (h.alone g hlive hlt)
    · exact (hspread.shift_fresh hs h.live (Nat.le_of_not_lt hsize)).2.2

end Filling

/-- what two runs come to, and the worlds that they leave: values or faults that correspond, where frames older than `c`
are the same -/
def EndAlike (c : FrameId) (x y : Except Fault Datum × World) : Prop :=
  ∃ p, World.Spread p x.2 y.2 ∧
    ((∃ v, x.1 = .ok v ∧ y.1 = .ok (v.renumber p.number) ∧ p.Holds v ∧ (∀ g, g < c → p.number g = g) ∧
        Set.InjOn p.number p.live) ∨
      ∃ fault, x.1 = .error fault ∧ y.1 = .error (fault.renumber p.number))

namespace Evaluator

variable {c : FrameId}

theorem fill_cons (ev : Evaluator) (f : FrameId) (x : String) (e : Datum) (bindings : List Datum) :
    ev.fill f (.list [.identifier x, e] :: bindings) = (do
      let v ← ev e f
      Effect.define f x v
      ev.fill f bindings) := rfl

/-- **All bindings**, and then the body -/
theorem fill_endAlike (room depth : Nat) {bindings : List (String × Datum)} {body : Datum}
    (hbindings : ∀ b ∈ bindings, b.2.Within c ∧ ¬ b.2.Declares) (hbody : body.Within c) {p : Spreading} {w v : World}
    (h : Filling p c w v) (halone : bindings = [] → p.Alone c) :
    EndAlike c
      ((do
        (Datum.evaluate room depth).fill c (bindings.map fun b => .list [.identifier b.1, b.2])
        Datum.evaluate room depth body c : Run Datum) w)
      ((Datum.evaluate room depth).chained (p.number c) bindings body v) := by
  induction bindings generalizing p w v with
  | nil =>
    have hruns := Datum.evaluate_spreads p room depth (h.admits hbody (Or.inl (halone rfl))) w v h.spread
    rw [h.renumber_eq hbody] at hruns
    show EndAlike c (Datum.evaluate room depth body c w) (Datum.evaluate room depth body (p.number c) v)
    rcases hruns with ⟨u, w', u', v', hw, hv, hspread, rfl, hu⟩ | ⟨fault, w', fault', v', hw, hv, hspread, rfl⟩
    · rw [hw, hv]
      exact ⟨p, hspread, Or.inl ⟨u, rfl, rfl, hu, fun g hg => (h.old g hg).2.1, h.injOn (halone rfl)⟩⟩
    · rw [hw, hv]
      exact ⟨p, hspread, Or.inr ⟨fault, rfl, rfl⟩⟩
  | cons b bindings ih =>
    obtain ⟨x, e⟩ := b
    rw [List.forall_mem_cons] at hbindings
    obtain ⟨⟨he, hquiet⟩, hrest⟩ := hbindings
    -- the notes of the calls make no difference
    have hnotes : World.Spread p w { v with notes := v.notes ++
        (Datum.lambda [x] (Datum.nestedCalls bindings body)).entered.toArray } := ⟨h.spread.store, h.spread.printed⟩
    have hruns := Datum.evaluate_spreads p room depth
      (h.admits he (Or.inr fun y hy => hquiet hy.declares)) _ _ hnotes
    rw [h.renumber_eq he] at hruns
    rw [List.map_cons, fill_cons, chained, Effect.bind_ok (Effect.noteAll_apply _ v)]
    simp only [bind_assoc]
    rcases hruns with ⟨u, w', u', v', hw, hv, hspread, rfl, hu⟩ | ⟨fault, w', fault', v', hw, hv, hspread, rfl⟩
    · obtain ⟨hstays, hout⟩ := (Datum.evaluate_sealed room depth e c w (h.guards he hquiet)).of_ok hw
      have hfilling : Filling p c w' v' := ⟨hspread, hstays.isSealed, h.live, h.old, h.alone⟩
      obtain ⟨hfilling', halone', hnumber⟩ := hfilling.bind x hout hu
      rw [Effect.bind_ok hw, Effect.bind_ok hv, Effect.bind_ok (Effect.define_apply c x u w'),
        Effect.bind_ok (Effect.newFrame_apply _ _ v'), ← hnumber]
      exact ih hrest hfilling' fun _ => halone'
    · rw [Effect.bind_error hw, Effect.bind_error hv]
      exact ⟨p, hspread, Or.inr ⟨fault, rfl, rfl⟩⟩

end Evaluator

/-- where a let form and the calls begin: its new frame binds nothing yet, and there is none for the calls -/
theorem Filling.begin {s : Store} (hs : s.WellFormed) {f : FrameId} (hf : f < s.size) (printed : String)
    (notes notes' : Array Note) :
    Filling (.without s.size f) s.size ⟨s.push [] (some f), printed, notes⟩ ⟨s, printed, notes'⟩ := by
  have hspread := hs.spread_without hf
  refine ⟨⟨hspread, rfl⟩, .of_push hs hf, trivial, fun g hg => ?_, fun g _ hlt => ?_⟩
  · exact ⟨trivial, Spreading.without_of_lt hg⟩
  · exact (hspread.fresh g (by rw [Store.size_push]; exact hlt)).2.2

/-- without bindings the new frames are the same -/
theorem Filling.same {s : Store} (hs : s.WellFormed) {f : FrameId} (hf : f < s.size) (printed : String)
    (notes notes' : Array Note) :
    Filling .same s.size ⟨s.push [] (some f), printed, notes⟩ ⟨s.push [] (some f), printed, notes'⟩ :=
  ⟨⟨Store.spread_same _, rfl⟩, .of_push hs hf, trivial, fun _ _ => ⟨trivial, rfl, rfl⟩,
    fun g _ _ => Spreading.alone_same g⟩

/-- a let form and the calls end alike, where their parts are evaluated equally deep -/
theorem Datum.letForm_endAlike (room depth : Nat) {w : World} (hw : w.store.WellFormed) {f : FrameId}
    (hf : f < w.store.size) {bindings : List (String × Datum)} {body : Datum}
    (hbindings : ∀ b ∈ bindings, b.2.Within w.store.size ∧ ¬ b.2.Declares) (hbody : body.Within w.store.size) :
    EndAlike w.store.size ((letForm bindings body).evaluate room (depth + 1) f w)
      ((evaluate room depth).calls f bindings body w) := by
  rw [evaluate_letForm, Effect.bind_ok (Effect.noteAll_apply _ w), Effect.bind_ok (Effect.newFrame_apply _ _ _)]
  cases bindings with
  | nil =>
    rw [Evaluator.calls, Effect.bind_ok (Effect.noteAll_apply _ w), Effect.bind_ok (Effect.newFrame_apply _ _ _)]
    exact Evaluator.fill_endAlike room depth hbindings hbody (.same hw hf _ _ _) fun _ => Spreading.alone_same _
  | cons b bindings =>
    have hends := Evaluator.fill_endAlike room depth hbindings hbody
      (.begin hw hf w.printed (w.notes ++ (letForm (b :: bindings) body).entered.toArray) w.notes) (by simp)
    rwa [Spreading.without_self.1] at hends

theorem Fault.renumber_eq_tooDeep_iff {ρ : FrameId → FrameId} {fault : Fault} :
    fault.renumber ρ = .tooDeep ↔ fault = .tooDeep := by
  cases fault <;> simp [Fault.renumber]

/-- runs that end alike stop for depth both or neither -/
theorem EndAlike.tooDeep_iff {c : FrameId} {x y : Except Fault Datum × World} (h : EndAlike c x y) :
    x.1 = .error .tooDeep ↔ y.1 = .error .tooDeep := by
  obtain ⟨p, -, ⟨v, hx, hy, -⟩ | ⟨fault, hx, hy⟩⟩ := h
  · simp [hx, hy]
  · simp [hx, hy, Fault.renumber_eq_tooDeep_iff]

/-- runs that end alike have printed the same, and end with the same fault or the same value up to new frames -/
theorem EndAlike.outcomes {c : FrameId} {x y : Except Fault Datum × World} (h : EndAlike c x y) :
    y.2.printed = x.2.printed ∧
      ((∃ fault fault', x.1 = .error fault ∧ y.1 = .error fault' ∧ fault'.kind = fault.kind ∧
          fault'.message = fault.message) ∨
        ∃ v p, x.1 = .ok v ∧ y.1 = .ok (v.renumber p.number) ∧ x.2.store.Spread p y.2.store ∧ p.Holds v ∧
          (∀ g, g < c → p.number g = g) ∧ Set.InjOn p.number p.live ∧
          ((v.AllClosures fun _ _ _ => False) → y.1 = .ok v)) := by
  obtain ⟨p, hspread, ⟨v, hx, hy, hheld, hold, hinj⟩ | ⟨fault, hx, hy⟩⟩ := h
  · refine ⟨hspread.printed, Or.inr ⟨v, p, hx, hy, hspread.store, hheld, hold, hinj, fun hnone => ?_⟩⟩
    rw [hy, Datum.renumber_eq_self (Datum.AllClosures.mono hnone fun _ _ _ hfalse => hfalse.elim)]
  · exact ⟨hspread.printed, Or.inl ⟨fault, _, hx, hy, Fault.kind_renumber _ _, Fault.message_renumber _ _⟩⟩

/-! ## Main statement -/

/-- **A let form is nested calls.** In a reachable store, let the values of a let form declare nothing. With enough
depth the let form comes to an end just if the calls do. Then both have printed the same, and they end with faults of
one kind and one message, or with a value each. The values are the same but for the frames that were made in each run:
a numbering of them, under which the store of the let form is spread over that of the calls, takes the one value to
the other, keeps the frames that were there before and tells all live frames apart. Values without functions are the
same. Where there is no end to either, too, each prints with enough depth what the other has printed at some depth.
Neither run changes a frame that was there before. -/
theorem let_form_is_nested_calls {s : Store} (hs : s.Reachable) {f : FrameId} (hf : f < s.size)
    {bindings : List (String × Datum)} {body : Datum}
    (hbindings : ∀ b ∈ bindings, b.2.Within s.size ∧ ¬ b.2.Declares) (hbody : body.Within s.size) (room : Nat)
    (printed : String) (notes : Array Note) :
    let w : World := ⟨s, printed, notes⟩
    let first := fun depth => (Datum.letForm bindings body).evaluate room depth f w
    let second := fun depth => (Datum.letAsCalls bindings body).evaluate room depth f w
    ((∃ m, (first m).1 ≠ .error .tooDeep) ↔ ∃ n, (second n).1 ≠ .error .tooDeep) ∧
      (∀ m n, (first m).1 ≠ .error .tooDeep → (second n).1 ≠ .error .tooDeep →
        (second n).2.printed = (first m).2.printed ∧
          ((∃ fault fault', (first m).1 = .error fault ∧ (second n).1 = .error fault' ∧ fault'.kind = fault.kind ∧
              fault'.message = fault.message) ∨
            ∃ v p, (first m).1 = .ok v ∧ (second n).1 = .ok (v.renumber p.number) ∧
              (first m).2.store.Spread p (second n).2.store ∧ p.Holds v ∧ (∀ g, g < s.size → p.number g = g) ∧
              Set.InjOn p.number p.live ∧ ((v.AllClosures fun _ _ _ => False) → (second n).1 = .ok v))) ∧
      ((∀ m, ∃ n, (first m).2.Precedes (second n).2) ∧ ∀ n, ∃ m, (second n).2.Precedes (first m).2) ∧
      ∀ depth g, g < s.size →
        (first depth).2.store.frame? g = s.frame? g ∧ (second depth).2.store.frame? g = s.frame? g := by
  intro w first second
  have hends : ∀ n, EndAlike s.size (first (n + 1)) ((Datum.evaluate room n).calls f bindings body w) := fun n =>
    Datum.letForm_endAlike room n hs.wellFormed hf hbindings hbody
  have hfirst : ∀ m, (first m).1 ≠ .error .tooDeep → ∀ n, m ≤ n → first n = first m := fun m hm n hmn =>
    (Datum.evaluate_cuts le_rfl hmn _ f).eq hm
  have hcalls : ∀ n, (second n).1 ≠ .error .tooDeep → ∀ N, n + bindings.length + 1 ≤ N →
      (Datum.evaluate room N).calls f bindings body w = second n := fun n hn N hN =>
    ((Datum.letAsCalls_cuts n f bindings body).trans (Evaluator.calls_mono hN f bindings body)).eq hn
  have hprinted : ∀ n, ((Datum.evaluate room n).calls f bindings body w).2.printed = (first (n + 1)).2.printed :=
    fun n => (hends n).outcomes.1
  refine ⟨⟨?_, ?_⟩, fun m n hm hn => ?_, ⟨fun m => ⟨m + bindings.length + 2, ?_⟩,
    fun n => ⟨n + bindings.length + 1 + 1, ?_⟩⟩, fun depth g hg => ⟨?_, ?_⟩⟩
  · rintro ⟨m, hm⟩
    refine ⟨m + bindings.length + 2, ?_⟩
    have hm' : (first (m + 1)).1 ≠ .error .tooDeep := by rwa [hfirst m hm (m + 1) (Nat.le_succ m)]
    have hcalled := mt (hends m).tooDeep_iff.2 hm'
    have hlong : second (m + bindings.length + 2) = _ := (Evaluator.calls_cuts m f bindings body).eq hcalled
    rwa [hlong]
  · rintro ⟨n, hn⟩
    refine ⟨n + bindings.length + 1 + 1, mt (hends _).tooDeep_iff.1 ?_⟩
    rwa [hcalls n hn _ le_rfl]
  · have hboth := hends (max m (n + bindings.length + 1))
    rw [hfirst m hm _ (by omega), hcalls n hn _ (le_max_right ..)] at hboth
    exact hboth.outcomes
  · have hlonger : (first m).2.Precedes (first (m + 1)).2 :=
      ((Datum.letForm bindings body).evaluate_cuts le_rfl (Nat.le_succ m) f).precedes w
    exact (hlonger.trans (.of_eq (hprinted m))).trans ((Evaluator.calls_cuts m f bindings body).precedes w)
  · have hcalled : (second n).2.Precedes ((Datum.evaluate room (n + bindings.length + 1)).calls f bindings body w).2 :=
      (Datum.letAsCalls_cuts n f bindings body).precedes w
    exact hcalled.trans (.of_eq (hprinted _).symm)
  · exact Datum.evaluate_keeps (Datum.letForm_not_defines bindings body) room depth f hs.distinct hg
  · have hdefines := Datum.letAsCalls_not_defines (fun b hb => (hbindings b hb).2) body
    exact Datum.evaluate_keeps hdefines room depth f hs.distinct hg

/-- one name is bound twice, each time to the value of a call that prints, and a function captures the last frame -/
theorem name_bound_twice_is_two_calls :
    let say : Datum → Datum := fun e => .list [.identifier "say", e]
    let s := (Store.push .empty Builtin.bindings none).define 0 "say"
      (.closure ["y"] [.list [.identifier "print", .identifier "y"]] 0)
    let bindings := [("x", say (.atom (.string "a"))), ("x", say (.identifier "x"))]
    let body := Datum.lambda [] (.identifier "x")
    let w : World := ⟨s, "", #[]⟩
    let first := (Datum.letForm bindings body).evaluate 9 9 0 w
    let second := (Datum.letAsCalls bindings body).evaluate 9 9 0 w
    s.Reachable ∧ (∀ b ∈ bindings, b.2.Within s.size ∧ ¬ b.2.Declares) ∧ body.Within s.size ∧
      first.1 = .ok (.closure [] [.identifier "x"] 1) ∧ second.1 = .ok (.closure [] [.identifier "x"] 4) ∧
      first.2.printed = "a\na\n" ∧ second.2.printed = "a\na\n" ∧
      ∃ p, first.2.store.Spread p second.2.store ∧ p.number 1 = 4 := by
  intro say s bindings body w first second
  have hsay : (Datum.closure ["y"] [.list [.identifier "print", .identifier "y"]] 0).Within 1 := by
    simp [Datum.Within, Datum.allClosures_closure, Datum.allClosures_list, Datum.identifier]
  have hs : s.Reachable := Store.Reachable.empty.newRoot.define 0 "say" hsay
  have hsize : 0 < s.size := by decide
  have hquiet : ∀ a : Atom, ¬ (say (.atom a)).Declares := by
    intro a
    have hkeyword : (Datum.identifier "say").NoKeyword := Datum.noKeyword_iff.2 (by decide)
    rw [Datum.declares_items (.items hkeyword [.atom a])]
    simp [Datum.identifier, Datum.not_declares_atom]
  have hbindings : ∀ b ∈ bindings, b.2.Within s.size ∧ ¬ b.2.Declares := by
    have hwithin : ∀ a : Atom, (say (.atom a)).Within s.size := by
      simp [say, Datum.Within, Datum.allClosures_list, Datum.identifier]
    simp only [bindings, List.forall_mem_cons, List.not_mem_nil, false_implies, implies_true, and_true]
    exact ⟨⟨hwithin _, hquiet _⟩, hwithin _, hquiet _⟩
  have hbody : body.Within s.size := by
    simp [body, Datum.lambda, Datum.ofForm, Datum.Within, Datum.allClosures_list, Datum.identifier]
  have hfirst : first.1 = .ok (.closure [] [.identifier "x"] 1) := by
    simp only [first, w, s, bindings, body, say]
    cbv
  have hsecond : second.1 = .ok (.closure [] [.identifier "x"] 4) := by
    simp only [second, w, s, bindings, body, say]
    cbv
  have hprinted : first.2.printed = "a\na\n" := by decide +kernel
  obtain ⟨-, hends, -, -⟩ := let_form_is_nested_calls hs hsize hbindings hbody 9 "" #[]
  obtain ⟨hsame, hresult⟩ := hends 9 9
    (by rw [show (Datum.evaluate 9 9 (Datum.letForm bindings body) 0 w).1 = _ from hfirst]; simp)
    (by rw [show (Datum.evaluate 9 9 (Datum.letAsCalls bindings body) 0 w).1 = _ from hsecond]; simp)
  refine ⟨hs, hbindings, hbody, hfirst, hsecond, hprinted, hsame.trans hprinted, ?_⟩
  rcases hresult with ⟨fault, -, hfault, -⟩ | ⟨v, p, hv, hv', hspread, -⟩
  · cases hfault.symm.trans hfirst
  · have hvalue : v = .closure [] [.identifier "x"] 1 := Except.ok.inj (hv.symm.trans hfirst)
    have hnumber := Except.ok.inj (hv'.symm.trans hsecond)
    rw [hvalue, Datum.renumber_closure] at hnumber
    exact ⟨p, hspread, (Datum.closure.inj hnumber).2.2⟩

end FrameLisp
