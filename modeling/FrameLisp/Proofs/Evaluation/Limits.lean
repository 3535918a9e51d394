/-
Limits only cut evaluations short.

With a larger limit for its depth, and more room for what builtins show, an evaluation does the same, or it goes on
where the smaller limits stopped it (`Run.Cuts`). This goes step by step (`Cuts.bind`), through lists of data, bindings,
calls and every form, down to where the smaller limit is used up (`Datum.evaluate_cuts`). Hence a run that did not stop
for depth is the same under all larger limits; one that did has printed the beginning of what the longer one prints; and
it stops as soon as anything inside it stops for depth, since no form and no builtin goes on from that fault
(`limits_only_cut_short`).
-/
import Mathlib
import FrameLisp.Proofs.Evaluation.Begun

namespace FrameLisp

/-- what was printed is the beginning of what is printed later -/
def World.Precedes (w v : World) : Prop := ∃ out, v.printed = w.printed ++ out

namespace World.Precedes

variable {u v w : World}

theorem of_eq (h : v.printed = w.printed) : w.Precedes v := ⟨"", by rw [h, String.append_empty]⟩

theorem trans (h : u.Precedes v) (h' : v.Precedes w) : u.Precedes w := by
  obtain ⟨out, hout⟩ := h
  obtain ⟨out', hout'⟩ := h'
  exact ⟨out ++ out', by rw [hout', hout, String.append_assoc]⟩

end World.Precedes

/-! ## One run cut short -/

/-- `x` does what `y` does, or it stops for depth on the way; `y` only adds to what was printed -/
def Run.Cuts {α : Type} (x y : Run α) : Prop :=
  ∀ w, w.Precedes (y w).2 ∧ (x w = y w ∨ (x w).1 = .error .tooDeep ∧ (x w).2.Precedes (y w).2)

namespace Run

variable {α β : Type}

/-- a run that has no limits and prints nothing -/
theorem cuts_of_silent {x : Run α} (h : ∀ w, (x w).2.printed = w.printed) : x.Cuts x :=
  fun w => ⟨.of_eq (h w), Or.inl rfl⟩

theorem cuts_pure (a : α) : Cuts (pure a) (pure a) := cuts_of_silent fun _ => rfl

theorem cuts_fail (fault : Fault) : Cuts (Effect.fail fault : Run α) (Effect.fail fault) := cuts_of_silent fun _ => rfl

theorem cuts_lookup (f : FrameId) (x : String) : (lookup f x).Cuts (lookup f x) := by
  refine cuts_of_silent fun w => ?_
  unfold lookup
  split <;> rfl

theorem cuts_noteAll (notes : List Note) : Cuts (Effect.noteAll notes) (Effect.noteAll notes) := by
  refine cuts_of_silent fun w => ?_
  rw [Effect.noteAll_apply]

/-- a run that stops for depth at once cuts every run that only adds to what was printed -/
theorem cuts_tooDeep {y : Run α} (h : y.Cuts y) : Cuts (Effect.fail .tooDeep) y :=
  fun w => ⟨(h w).1, Or.inr ⟨rfl, (h w).1⟩⟩

/-- the longer run prints on from what the shorter one has printed -/
theorem Cuts.precedes {x y : Run α} (h : x.Cuts y) (w : World) : (x w).2.Precedes (y w).2 := by
  rcases (h w).2 with heq | ⟨-, hbefore⟩
  · exact .of_eq (by rw [heq])
  · exact hbefore

theorem Cuts.trans {x y z : Run α} (h : x.Cuts y) (h' : y.Cuts z) : x.Cuts z := by
  intro w
  obtain ⟨hprinted, hyz⟩ := h' w
  refine ⟨hprinted, ?_⟩
  rcases (h w).2 with heq | ⟨hdeep, hx⟩
  · rw [heq]
    exact hyz
  · exact Or.inr ⟨hdeep, hx.trans (h'.precedes w)⟩

/-- a run that was not cut short is the longer one -/
theorem Cuts.eq {x y : Run α} (h : x.Cuts y) {w : World} (hx : (x w).1 ≠ .error .tooDeep) : y w = x w := by
  rcases (h w).2 with heq | ⟨hdeep, -⟩
  · exact heq.symm
  · exact absurd hdeep hx

theorem Cuts.bind {x y : Run α} {next next' : α → Run β} (h : x.Cuts y) (hnext : ∀ a, (next a).Cuts (next' a)) :
    (x >>= next).Cuts (y >>= next') := by
  intro w
  obtain ⟨hprinted, hcut⟩ := h w
  -- what the longer run does in the end only adds to what it has printed after its first step
  have hlong : (y w).2.Precedes ((y >>= next') w).2 := by
    cases hy : y w with
    | mk r v =>
      cases r with
      | ok a =>
        rw [Effect.bind_ok hy]
        exact (hnext a v).1
      | error fault =>
        rw [Effect.bind_error hy]
        exact .of_eq rfl
  refine ⟨hprinted.trans hlong, ?_⟩
  rcases hcut with heq | ⟨hdeep, hbefore⟩
  · cases hy : y w with
    | mk r v =>
      rw [hy] at heq
      cases r with
      | ok a =>
        rw [Effect.bind_ok hy, Effect.bind_ok heq]
        exact (hnext a v).2
      | error fault =>
        rw [Effect.bind_error hy, Effect.bind_error heq]
        exact Or.inl rfl
  · have hx : x w = (.error .tooDeep, (x w).2) := Prod.ext hdeep rfl
    rw [Effect.bind_error hx]
    exact Or.inr ⟨rfl, hbefore.trans hlong⟩

end Run

open Run

/-! ## Builtins -/

/-- what a builtin shows within a small limit it shows within a large one; otherwise it has printed nothing yet -/
theorem Builtin.call_cuts {small large : Nat} (hle : small ≤ large) (b : Builtin) (args : List Datum) :
    (b.call small args).Cuts (b.call large args) := by
  intro w
  have hprinted : w.Precedes (b.call large args w).2 := ⟨_, call_printed large b args w⟩
  refine ⟨hprinted, ?_⟩
  by_cases hshows : b.showsWithin small args = true
  · rw [call_of_showsWithin hshows, call_of_showsWithin (showsWithin_mono hle hshows)]
    exact Or.inl rfl
  · have hcall : b.call small args w = (.error .tooDeep, w) := if_neg hshows
    rw [hcall]
    exact Or.inr ⟨rfl, hprinted⟩

/-! ## One level -/

namespace Evaluator

variable {ev ev' : Evaluator} (h : ∀ d f, (ev d f).Cuts (ev' d f))

include h

theorem each_cuts (f : FrameId) (ds : List Datum) : (ev.each f ds).Cuts (ev'.each f ds) := by
  induction ds with
  | nil => exact cuts_pure _
  | cons d ds ih =>
    refine (h d f).bind fun value => ?_
    exact ih.bind fun values => cuts_pure _

theorem sequence_cuts (f : FrameId) (last : Datum) (ds : List Datum) :
    (ev.sequence f last ds).Cuts (ev'.sequence f last ds) := by
  induction ds generalizing last with
  | nil => exact cuts_pure _
  | cons d ds ih => exact (h d f).bind fun value => ih value

theorem fill_cuts (f : FrameId) (bindings : List Datum) : (ev.fill f bindings).Cuts (ev'.fill f bindings) := by
  induction bindings with
  | nil => exact cuts_pure _
  | cons b bs ih =>
    rw [fill, fill]
    cases binding? b with
    | none => exact cuts_fail _
    | some binding =>
      obtain ⟨x, e⟩ := binding
      refine (h e f).bind fun value => ?_
      exact (cuts_of_silent fun _ => rfl).bind fun _ => ih

theorem call_cuts {room room' : Nat} (hroom : room ≤ room') (head : Datum) (args : List Datum) :
    (ev.call room head args).Cuts (ev'.call room' head args) := by
  cases head with
  | closure params body captured =>
    refine (cuts_of_silent fun _ => rfl).bind fun frame => ?_
    exact sequence_cuts h frame .absent body
  | builtin b => exact Builtin.call_cuts hroom b args
  | _ => exact cuts_fail _

theorem perform_cuts {room room' : Nat} (hroom : room ≤ room') (shape : Shape) (f : FrameId) :
    (shape.perform room ev f).Cuts (shape.perform room' ev' f) := by
  cases shape with
  | value v => exact cuts_pure v
  | name x => exact cuts_lookup f x
  | items head args =>
    refine (h head f).bind fun function => ?_
    refine (each_cuts h f args).bind fun values => ?_
    split
    · exact call_cuts h hroom function values
    · exact cuts_pure _
  | define x body =>
    refine (h body f).bind fun value => ?_
    exact (cuts_of_silent fun _ => rfl).bind fun _ => cuts_pure value
  | conditional condition consequent alternative =>
    refine (h condition f).bind fun value => ?_
    split
    · exact h consequent f
    · cases alternative with
      | none => exact cuts_pure _
      | some alternative => exact h alternative f
  | block bindings body =>
    refine (cuts_of_silent fun _ => rfl).bind fun inner => ?_
    exact (fill_cuts h inner bindings).bind fun _ => h body inner
  | function params body => exact cuts_pure _
  | malformed fault => exact cuts_fail fault

theorem evaluateWith_cuts {room room' : Nat} (hroom : room ≤ room') (d : Datum) (f : FrameId) :
    (d.evaluateWith room ev f).Cuts (d.evaluateWith room' ev' f) := by
  rw [Datum.evaluateWith_eq, Datum.evaluateWith_eq]
  exact (cuts_noteAll d.entered).bind fun _ => perform_cuts h hroom d.shape f

end Evaluator

/-! ## Main statement -/

/-- an evaluation under smaller limits is the one under larger limits, cut short -/
theorem Datum.evaluate_cuts {room room' small large : Nat} (hroom : room ≤ room') (hdepth : small ≤ large) (d : Datum)
    (f : FrameId) : (d.evaluate room small f).Cuts (d.evaluate room' large f) := by
  induction large generalizing room small d f with
  | zero =>
    obtain rfl : small = 0 := Nat.le_zero.1 hdepth
    exact cuts_fail _
  | succ large ih =>
    cases small with
    | zero => exact cuts_tooDeep (Evaluator.evaluateWith_cuts (ih le_rfl le_rfl) le_rfl d f)
    | succ small => exact Evaluator.evaluateWith_cuts (ih hroom (Nat.le_of_succ_le_succ hdepth)) hroom d f

/-- **Limits only cut runs short.** Let one evaluation have no more room and no more depth than another of the same
datum in the same frame and world. If the shorter one does not stop for depth, both come to the same value or fault
and leave the same world. In any case, what it printed is the beginning of what the longer one prints. It does stop,
with all that was done until then, where an evaluation inside it stops for depth or a builtin that is called inside it
shows data that are nested too deeply: no form and no builtin makes anything else of that fault. -/
theorem limits_only_cut_short {room room' small large : Nat} (hroom : room ≤ room') (hdepth : small ≤ large)
    (d : Datum) (f : FrameId) (w : World) :
    let short := d.evaluate room small f w
    let long := d.evaluate room' large f w
    (short.1 ≠ .error .tooDeep → long = short) ∧
      (∃ out, long.2.printed = short.2.printed ++ out) ∧
      (∀ y, Evaluation.Inside room ⟨small, d, f, w⟩ y → ∀ w', y.run room = (.error .tooDeep, w') →
        short = (.error .tooDeep, w')) ∧
      (∀ n e g v, Evaluation.Inside room ⟨small, d, f, w⟩ ⟨n + 1, e, g, v⟩ →
        ∀ head args b values w', e.HasShape (.items head args) →
          (Datum.evaluate room n).each g (head :: args) (v.entering e) = (.ok (.builtin b :: values), w') →
          b.showsWithin room values = false → short = (.error .tooDeep, w')) := by
  intro short long
  have hcuts := d.evaluate_cuts hroom hdepth f
  refine ⟨fun hshort => hcuts.eq hshort, hcuts.precedes w, fun y hy w' hrun => hy.run_error hrun, ?_⟩
  · intro n e g v hy head args b values w' he hvalues hshows
    refine hy.run_error ?_
    rw [Evaluation.run_eq n e g v he, perform_items, Effect.bind_ok hvalues, Evaluator.combine_builtin]
    have hcall : ¬ b.showsWithin room values = true := by simp [hshows]
    exact if_neg hcall

/-- three levels are enough for the first of two calls, and four for both -/
theorem deeper_run_goes_on :
    let say : Datum → Datum := fun e => .list [.identifier "print", e]
    let d := Datum.ofForm .block
      [.list [.list [.identifier "x", say (.atom (.string "a"))]], say (say (.atom (.string "b")))]
    let w : World := ⟨.push .empty Builtin.bindings none, "", #[]⟩
    let run := fun depth => d.evaluate 1 depth 0 w
    (run 3).1 = .error .tooDeep ∧ (run 3).2.printed = "a\n" ∧ (run 4).1 = .ok (.text "b") ∧
      (run 4).2.printed = "a\nb\nb\n" ∧ (∀ depth, 3 ≤ depth → ∃ out, (run depth).2.printed = "a\n" ++ out) ∧
      ∀ depth, 4 ≤ depth → run depth = run 4 := by
  intro say d w run
  have hshort : (run 3).1 = .error .tooDeep := by
    simp only [run, w, d, say]
    cbv
  have hlong : (run 4).1 = .ok (.text "b") := by
    simp only [run, w, d, say]
    cbv
  have hprinted : (run 3).2.printed = "a\n" ∧ (run 4).2.printed = "a\nb\nb\n" := by decide +kernel
  refine ⟨hshort, hprinted.1, hlong, hprinted.2, fun depth hdepth => ?_, fun depth hdepth => ?_⟩
  · rw [← hprinted.1]
    exact (limits_only_cut_short le_rfl hdepth d 0 w).2.1
  · refine (limits_only_cut_short le_rfl hdepth d 0 w).1 ?_
    rw [show (d.evaluate 1 4 0 w).1 = _ from hlong]
    simp

end FrameLisp
