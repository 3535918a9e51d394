/-
The numbers of frames do not matter.

Evaluation looks names up in frames, makes frames and binds names in them, but it never tells one frame number from
another. So a run can be followed by a second one in a store that is the first one's but for the numbers of its frames
(`Store.Renumbered`) and in a world where other text was printed and other notes were made: the second run prints the
same, comes to the same up to the numbers, and leaves such a store again (`evaluate_alike`).

The main statement is about two runs of one datum, one after the other. What the first one made is out of sight for the
second one, which makes frames of its own in the same order, so the second comes to the same as the first
(`reevaluation_is_stable`).
-/
import Mathlib
import FrameLisp.Proofs.Datum.Renumbering
import FrameLisp.Proofs.Evaluation.Distinct

namespace FrameLisp

/-! ## Stores with other numbers -/

/-- the frame with other numbers -/
def Frame.renumber (ρ : FrameId → FrameId) (frame : Frame) : Frame :=
  ⟨frame.bindings.renumber ρ, frame.outer.map ρ⟩

theorem Frame.renumber_id (frame : Frame) : frame.renumber id = frame := by
  have hbindings : frame.bindings.renumber id = frame.bindings := by
    refine (List.map_congr_left fun b _ => ?_).trans (List.map_id _)
    rw [Datum.renumber_id]
    rfl
  rw [Frame.renumber, hbindings, Option.map_id, id]

namespace Store

variable {ρ : FrameId → FrameId} {s t : Store}

/-- the frame `g` of `s` has the number `ρ g` in `t`, where there may be other frames too; new frames get numbers in
step -/
structure Renumbered (ρ : FrameId → FrameId) (s t : Store) : Prop where
  mono : StrictMono ρ
  frames : ∀ g, t.frame? (ρ g) = (s.frame? g).map (Frame.renumber ρ)
  next : ∀ i, ρ (s.size + i) = t.size + i

/-- where frames keep their numbers, the stores are the same -/
theorem renumbered_id_iff : s.Renumbered id t ↔ s = t := by
  have hid : Frame.renumber id = id := funext Frame.renumber_id
  constructor
  · intro h
    refine ext_frame? fun g => ?_
    have hframe := h.frames g
    rw [hid, Option.map_id, id, id] at hframe
    exact hframe.symm
  · rintro rfl
    refine ⟨strictMono_id, fun g => ?_, fun _ => rfl⟩
    rw [hid, Option.map_id, id, id]

namespace Renumbered

variable (h : s.Renumbered ρ t)

include h

theorem size : ρ s.size = t.size := h.next 0

theorem binds (x : String) (g : FrameId) : t.binds x (ρ g) = s.binds x g := by
  simp only [Store.binds, h.frames]
  cases s.frame? g with
  | none => rfl
  | some frame => exact Bindings.binds_renumber ρ frame.bindings x

theorem chain (g : FrameId) : t.chain (ρ g) = (s.chain g).map ρ := by
  induction g using Nat.strong_induction_on with
  | _ g ih =>
    rw [Store.chain, Store.chain, h.frames]
    cases s.frame? g with
    | none => rfl
    | some frame =>
      simp only [Option.map_some, Frame.renumber]
      cases frame.outer with
      | none => rfl
      | some outer =>
        simp only [Option.map_some, h.mono.lt_iff_lt]
        by_cases hlt : outer < g
        · rw [if_pos hlt, if_pos hlt, List.map_cons, ih outer hlt]
        · rw [if_neg hlt, if_neg hlt]
          rfl

/-- a name has the same value, up to the numbers -/
theorem lookup? (g : FrameId) (x : String) : t.lookup? (ρ g) x = (s.lookup? g x).map (Datum.renumber ρ) := by
  have hfind : t.find? (ρ g) x = (s.find? g x).map ρ := by
    rw [Store.find?, Store.find?, h.chain, List.find?_map]
    have hbinds : t.binds x ∘ ρ = s.binds x := funext (h.binds x)
    rw [hbinds]
  rw [Store.lookup?, Store.lookup?, hfind]
  cases s.find? g x with
  | none => rfl
  | some inner =>
    simp only [Option.map_some, Option.bind_some, h.frames]
    cases s.frame? inner with
    | none => rfl
    | some frame => exact Bindings.value?_renumber ρ frame.bindings x

theorem push (bindings : Bindings) (outer : Option FrameId) :
    (s.push bindings outer).Renumbered ρ (t.push (bindings.renumber ρ) (outer.map ρ)) := by
  refine ⟨h.mono, fun g => ?_, fun i => ?_⟩
  · rw [frame?_push, frame?_push, ← h.size, h.frames]
    by_cases hg : g = s.size
    · rw [if_pos hg, if_pos (congrArg ρ hg)]
      rfl
    · rw [if_neg hg, if_neg fun heq => hg (h.mono.injective heq)]
  · rw [size_push, size_push, Nat.add_assoc, Nat.add_assoc]
    exact h.next (1 + i)

theorem define (f : FrameId) (x : String) (v : Datum) :
    (s.define f x v).Renumbered ρ (t.define (ρ f) x (v.renumber ρ)) := by
  refine ⟨h.mono, fun g => ?_, fun i => ?_⟩
  · rw [frame?_define, frame?_define, h.frames]
    by_cases hf : f = g
    · rw [if_pos hf, if_pos (congrArg ρ hf)]
      cases s.frame? g with
      | none => rfl
      | some frame => simp only [Option.map_some, Frame.renumber, Bindings.assign_renumber]
    · rw [if_neg hf, if_neg fun heq => hf (h.mono.injective heq)]
  · rw [size_define, size_define]
    exact h.next i

end Renumbered

end Store

/-- `v` has the frames of `w` under other numbers, and both have printed the same since `w` had printed `p` and `v` had
printed `q`; their notes may differ -/
structure World.Alike (ρ : FrameId → FrameId) (p q : String) (w v : World) : Prop where
  store : w.store.Renumbered ρ v.store
  printed : ∃ out, w.printed = p ++ out ∧ v.printed = q ++ out

/-! ## One level of evaluation -/

namespace Evaluator

variable {α β : Type} {ρ : FrameId → FrameId} {p q : String}

/-- in worlds that are alike, `x` and `y` come to the same but for the numbers of frames: to a result and `act` of it,
or to faults that a user reads the same -/
abbrev Alike (ρ : FrameId → FrameId) (p q : String) (act : α → β) (x : Run α) (y : Run β) : Prop :=
  Effect.Coupled (World.Alike ρ p q) (fun e e' => e' = e.renumber ρ) (fun a b => b = act a) x y

theorem Alike.bind {γ δ : Type} {act : α → β} {act' : γ → δ} {x : Run α} {y : Run β} {next : α → Run γ}
    {next' : β → Run δ} (h : Alike ρ p q act x y) (hnext : ∀ a, Alike ρ p q act' (next a) (next' (act a))) :
    Alike ρ p q act' (x >>= next) (y >>= next') := by
  refine Effect.Coupled.bind h fun a b hab => ?_
  rw [hab]
  exact hnext a

theorem alike_pure (act : α → β) (a : α) : Alike ρ p q act (pure a) (pure (act a)) := Effect.coupled_pure rfl

theorem alike_fail (act : α → β) (fault : Fault) :
    Alike ρ p q act (Effect.fail fault) (Effect.fail (fault.renumber ρ)) :=
  Effect.coupled_fail rfl

theorem alike_noteAll (notes notes' : List Note) : Alike ρ p q id (Effect.noteAll notes) (Effect.noteAll notes') :=
  fun _ _ h => Effect.coupledAt_noteAll ⟨h.store, h.printed⟩ rfl

theorem alike_newFrame (bindings : Bindings) (outer : Option FrameId) :
    Alike ρ p q ρ (Effect.newFrame bindings outer) (Effect.newFrame (bindings.renumber ρ) (outer.map ρ)) :=
  fun _ _ h => Or.inl ⟨_, _, _, _, rfl, rfl, ⟨h.store.push bindings outer, h.printed⟩, h.store.size.symm⟩

theorem alike_define (f : FrameId) (x : String) (v : Datum) :
    Alike ρ p q id (Effect.define f x v) (Effect.define (ρ f) x (v.renumber ρ)) :=
  fun _ _ h => Or.inl ⟨_, _, _, _, rfl, rfl, ⟨h.store.define f x v, h.printed⟩, rfl⟩

theorem alike_lookup (f : FrameId) (x : String) :
    Alike ρ p q (Datum.renumber ρ) (Run.lookup f x) (Run.lookup (ρ f) x) :=
  fun _ _ h => Run.lookup_coupledAt h (h.store.lookup? f x) (fun _ _ => rfl) rfl

theorem alike_builtin (room : Nat) (b : Builtin) (args : List Datum) :
    Alike ρ p q (Datum.renumber ρ) (b.call room args) (b.call room (args.map (Datum.renumber ρ))) := by
  intro w v h
  obtain ⟨out, hout, hout'⟩ := h.printed
  refine (Datum.transport_renumber ρ).call_coupledAt room b args h ?_ (fun _ _ => rfl)
    fun fault => (fault.renumber_eq_map ρ).symm
  rw [Builtin.output_renumber]
  refine ⟨h.store, out ++ b.output args, ?_, ?_⟩
  · rw [World.print, hout, String.append_assoc]
  · rw [World.print, hout', String.append_assoc]

section

variable {ev : Evaluator} (hev : ∀ d f, Alike ρ p q (Datum.renumber ρ) (ev d f) (ev (d.renumber ρ) (ρ f)))

include hev

theorem each_alike (f : FrameId) (ds : List Datum) :
    Alike ρ p q (List.map (Datum.renumber ρ)) (ev.each f ds) (ev.each (ρ f) (ds.map (Datum.renumber ρ))) := by
  induction ds with
  | nil => exact alike_pure _ []
  | cons d ds ih =>
    refine (hev d f).bind fun v => ?_
    exact ih.bind fun vs => alike_pure _ (v :: vs)

theorem sequence_alike (f : FrameId) (last : Datum) (ds : List Datum) :
    Alike ρ p q (Datum.renumber ρ) (ev.sequence f last ds)
      (ev.sequence (ρ f) (last.renumber ρ) (ds.map (Datum.renumber ρ))) := by
  induction ds generalizing last with
  | nil => exact alike_pure _ last
  | cons d ds ih => exact (hev d f).bind fun v => ih v

theorem fill_alike (f : FrameId) (bindings : List Datum) :
    Alike ρ p q id (ev.fill f bindings) (ev.fill (ρ f) (bindings.map (Datum.renumber ρ))) := by
  induction bindings with
  | nil => exact alike_pure id ()
  | cons b bindings ih =>
    simp only [List.map_cons, Evaluator.fill, (Datum.recoding_renumber ρ).binding?_eq]
    cases binding? b with
    | none => exact alike_fail id (.malformedBinding b)
    | some binding =>
      refine (hev binding.2 f).bind fun v => ?_
      exact (alike_define f binding.1 v).bind fun _ => ih

theorem call_alike (room : Nat) (function : Datum) (args : List Datum) :
    Alike ρ p q (Datum.renumber ρ) (ev.call room function args)
      (ev.call room (function.renumber ρ) (args.map (Datum.renumber ρ))) := by
  cases function with
  | closure params body captured =>
    rw [Datum.renumber_closure]
    have hnew : Alike ρ p q ρ (Effect.newFrame _ (some captured)) (Effect.newFrame _ (some (ρ captured))) :=
      alike_newFrame (Bindings.ofPairs (Bindings.ofParams params args)) (some captured)
    rw [Bindings.ofParams_renumber] at hnew
    exact hnew.bind fun inner => sequence_alike hev inner .absent body
  | builtin b => exact alike_builtin room b args
  | list items => exact alike_fail _ (.notFunction (.list items))
  | atom | absent | number | text => exact alike_fail _ (.notFunction _)

theorem perform_alike (room : Nat) (f : FrameId) (shape : Shape) :
    Alike ρ p q (Datum.renumber ρ) (shape.perform room ev f) ((shape.renumber ρ).perform room ev (ρ f)) := by
  cases shape with
  | value v => exact alike_pure _ v
  | name x => exact alike_lookup f x
  | items head args =>
    refine (hev head f).bind fun function => ?_
    refine (each_alike hev f args).bind fun values => ?_
    rw [(Datum.transport_renumber ρ).isFunction_eq]
    split
    · exact call_alike hev room function values
    · rw [← List.map_cons, ← Datum.renumber_list]
      exact alike_pure _ _
  | define x body =>
    refine (hev body f).bind fun v => ?_
    exact (alike_define f x v).bind fun _ => alike_pure _ v
  | conditional condition consequent alternative =>
    refine (hev condition f).bind fun v => ?_
    rw [(Datum.transport_renumber ρ).holds_eq]
    split
    · exact hev consequent f
    · cases alternative with
      | none => exact alike_pure _ Datum.absent
      | some alternative => exact hev alternative f
  | block bindings body =>
    refine (alike_newFrame [] (some f)).bind fun inner => ?_
    refine (fill_alike hev inner bindings).bind fun _ => ?_
    exact hev body inner
  | function params body =>
    rw [Shape.renumber, Shape.perform, Shape.perform, ← Datum.renumber_closure]
    exact alike_pure _ _
  | malformed fault => exact alike_fail _ fault

end

end Evaluator

/-- **The numbers of frames do not matter**, nor what was printed and noted before: a datum and the renumbered datum
come to the same, up to the numbers -/
theorem Datum.evaluate_alike (ρ : FrameId → FrameId) (p q : String) (room depth : Nat) (d : Datum) (f : FrameId) :
    Evaluator.Alike ρ p q (renumber ρ) (d.evaluate room depth f) ((d.renumber ρ).evaluate room depth (ρ f)) := by
  induction depth generalizing d f with
  | zero => exact Evaluator.alike_fail _ .tooDeep
  | succ depth ih =>
    rw [evaluate_succ, evaluate_succ, evaluateWith_eq, evaluateWith_eq, shape_renumber]
    refine (Evaluator.alike_noteAll _ _).bind fun _ => ?_
    exact Evaluator.perform_alike ih room f d.shape

/-- what comes out of two computations that are alike -/
theorem Evaluator.Alike.outcome {ρ : FrameId → FrameId} {p q : String} {x y : Run Datum} {w v : World}
    (h : Alike ρ p q (Datum.renumber ρ) x y) (hw : World.Alike ρ p q w v) :
    (y v).1 = Datum.renumberOutcome ρ (x w).1 ∧ World.Alike ρ p q (x w).2 (y v).2 := by
  rcases h w v hw with ⟨a, w', b, v', hx, hy, halike, hb⟩ | ⟨fault, w', fault', v', hx, hy, halike, hfault⟩
  · rw [hx, hy, hb]
    exact ⟨rfl, halike⟩
  · rw [hx, hy, hfault]
    exact ⟨rfl, halike⟩

/-! ## Running again -/

/-- keeps the numbers below `n` and leaves a gap of `k` numbers after them -/
def Store.gap (n k g : Nat) : Nat := if g < n then g else g + k

namespace Store

theorem gap_of_lt {n k g : Nat} (h : g < n) : gap n k g = g := if_pos h

theorem gap_of_le {n k g : Nat} (h : n ≤ g) : gap n k g = g + k := if_neg (Nat.not_lt.2 h)

theorem gap_strictMono (n k : Nat) : StrictMono (gap n k) := by
  intro g g' hlt
  simp only [gap]
  split_ifs <;> omega

/-- what is counted after a gap goes on where the gap ends -/
theorem gap_bijOn {n m : Nat} (h : n ≤ m) :
    Set.BijOn (gap n (m - n)) (Set.Ico n m) (Set.Ico m (gap n (m - n) m)) := by
  refine ⟨fun g hg => ?_, (gap_strictMono n (m - n)).injective.injOn, fun g hg => ?_⟩
  · rw [Set.mem_Ico] at hg ⊢
    rw [gap_of_le hg.1, gap_of_le h]
    omega
  · rw [Set.mem_Ico, gap_of_le h] at hg
    refine ⟨g - (m - n), ?_, ?_⟩
    · rw [Set.mem_Ico]
      omega
    · rw [gap_of_le (by omega)]
      omega

variable {s t : Store}

/-- a well-formed store, and one that has the same frames and has made others since -/
theorem Renumbered.of_kept (hs : s.WellFormed) (hsize : s.size ≤ t.size)
    (hkept : ∀ g, g < s.size → t.frame? g = s.frame? g) : s.Renumbered (gap s.size (t.size - s.size)) t := by
  refine ⟨gap_strictMono _ _, fun g => ?_, fun i => ?_⟩
  · by_cases hg : g < s.size
    · rw [gap_of_lt hg, hkept g hg]
      obtain ⟨frame, hframe⟩ := exists_frame hg
      have hbindings : frame.bindings.renumber (gap s.size (t.size - s.size)) = frame.bindings := by
        refine (List.map_congr_left fun b hb => ?_).trans (List.map_id _)
        have hwithin : b.2.Within s.size := hs.within g frame hframe b hb
        rw [Datum.renumber_eq_self (Datum.AllClosures.mono hwithin fun _ _ _ hlt => gap_of_lt hlt)]
        rfl
      have houter : frame.outer.map (gap s.size (t.size - s.size)) = frame.outer := by
        cases ho : frame.outer with
        | none => rfl
        | some outer => rw [Option.map_some, gap_of_lt ((hs.outer_lt g frame outer hframe ho).trans hg)]
      rw [hframe, Option.map_some, Frame.renumber, hbindings, houter]
    · have hg' := Nat.le_of_not_lt hg
      rw [gap_of_le hg', frame?_eq_none_iff.2 hg', frame?_eq_none_iff.2 (by omega)]
      rfl
  · have hle : s.size ≤ s.size + i := Nat.le_add_right _ _
    rw [gap_of_le hle, Nat.add_right_comm, Nat.add_sub_of_le hsize]

end Store

/-- a datum that was read comes to the same in a store where frames have been made since -/
theorem Datum.Parsed.evaluate_after {e : Datum} (he : e.Parsed) {w v : World} (hw : w.store.WellFormed)
    (hsize : w.store.size ≤ v.store.size) (hkept : ∀ g, g < w.store.size → v.store.frame? g = w.store.frame? g)
    {f : FrameId} (hf : f < w.store.size) (room depth : Nat) :
    let ρ := Store.gap w.store.size (v.store.size - w.store.size)
    (e.evaluate room depth f v).1 = renumberOutcome ρ (e.evaluate room depth f w).1 ∧
      World.Alike ρ w.printed v.printed (e.evaluate room depth f w).2 (e.evaluate room depth f v).2 := by
  intro ρ
  have hstart : World.Alike ρ w.printed v.printed w v := by
    refine ⟨Store.Renumbered.of_kept hw hsize hkept, "", ?_, ?_⟩
    · rw [String.append_empty]
    · rw [String.append_empty]
  have hframe : ρ f = f := Store.gap_of_lt hf
  have halike := e.evaluate_alike ρ w.printed v.printed room depth f
  rw [renumber_eq_self he.allClosures, hframe] at halike
  exact halike.outcome hstart

/-- **Running again comes to the same.** In a reachable store, let a datum that was read define nothing in its frame.
Its evaluation and a second one right after it print the same text and leave the frames that were there before as they
were. If the first ends with a value, the second ends with that value, where the frames that the first one made are
those that the second one made, in the same order; so with the same value if there is no closure in it. If the first
ends with a fault, the second ends with a fault of that kind and that message. -/
theorem reevaluation_is_stable {s : Store} (hs : s.Reachable) {f : FrameId} (hf : f < s.size) {e : Datum}
    (he : e.Parsed) (hdefines : ∀ x, ¬ e.Defines x) (room depth : Nat) (printed : String) (notes : Array Note) :
    let first := e.evaluate room depth f ⟨s, printed, notes⟩
    let second := e.evaluate room depth f first.2
    ∃ (out : String) (ρ : FrameId → FrameId),
      first.2.printed = printed ++ out ∧ second.2.printed = first.2.printed ++ out ∧
      (∀ g, g < s.size → first.2.store.frame? g = s.frame? g ∧ second.2.store.frame? g = s.frame? g) ∧
      (∀ g, g < s.size → ρ g = g) ∧
      Set.BijOn ρ (Set.Ico s.size first.2.store.size) (Set.Ico first.2.store.size second.2.store.size) ∧
      (∀ v, first.1 = .ok v →
        second.1 = .ok (v.renumber ρ) ∧ (v.AllClosures (fun _ _ _ => False) → second.1 = .ok v)) ∧
      ∀ fault, first.1 = .error fault →
        ∃ fault', second.1 = .error fault' ∧ fault'.kind = fault.kind ∧ fault'.message = fault.message := by
  intro first second
  have hlocal : s.ChangesOnly f e.Defines first.2.store := e.evaluate_changesOnly room depth f ⟨s, printed, notes⟩
  have hdistinct : first.2.store.Distinct :=
    e.evaluate_steady Store.steady_distinct room depth f ⟨s, printed, notes⟩ hs.distinct
  have hkept : ∀ g, g < s.size → first.2.store.frame? g = s.frame? g :=
    fun g hg => hlocal.kept hdefines hdistinct hg
  have hkept' : ∀ g, g < s.size → second.2.store.frame? g = s.frame? g := by
    intro g hg
    have hkeeps := Datum.evaluate_keeps hdefines room depth f hdistinct (hg.trans_le hlocal.size_le)
    exact hkeeps.trans (hkept g hg)
  -- to the second run, the frames of the first one are frames that have been made since
  obtain ⟨hresult, hstore, out, hout, hout'⟩ :=
    he.evaluate_after (w := ⟨s, printed, notes⟩) hs.wellFormed hlocal.size_le hkept hf room depth
  refine ⟨out, Store.gap s.size (first.2.store.size - s.size), hout, hout', fun g hg => ⟨hkept g hg, hkept' g hg⟩,
    fun g hg => Store.gap_of_lt hg, ?_, fun v hv => ?_, fun fault hfault => ?_⟩
  · have hbij := Store.gap_bijOn hlocal.size_le
    rwa [hstore.size] at hbij
  · have hsecond : second.1 = .ok (v.renumber _) := hresult.trans (congrArg _ hv)
    refine ⟨hsecond, fun hnone => ?_⟩
    rw [hsecond, Datum.renumber_eq_self (Datum.AllClosures.mono hnone fun _ _ _ => False.elim)]
  · have hsecond : second.1 = .error (fault.renumber _) := hresult.trans (congrArg _ hfault)
    exact ⟨_, hsecond, Fault.kind_renumber _ fault, Fault.message_renumber _ fault⟩

/-- a function that defines, prints and makes a function is called twice: each call makes a frame of its own -/
theorem second_call_is_like_the_first :
    let body : List Datum :=
      [.ofForm .define [.identifier "y", .identifier "x"], .list [.identifier "print", .identifier "y"],
        .ofForm .function [.list [], .identifier "y"]]
    let s := (Store.empty.push Builtin.bindings none).define 0 "g" (.closure ["x"] body 0)
    let e := Datum.list [.identifier "g", .atom (.string "a")]
    let first := e.evaluate 0 4 0 ⟨s, "", #[]⟩
    let second := e.evaluate 0 4 0 first.2
    s.Reachable ∧ 0 < s.size ∧ e.Parsed ∧ (∀ x, ¬ e.Defines x) ∧
      first.1 = .ok (.closure [] [.identifier "y"] 1) ∧ second.1 = .ok (.closure [] [.identifier "y"] 2) ∧
      first.2.printed = "a\n" ∧ second.2.printed = "a\na\n" := by
  intro body s e first second
  have hg : (Datum.closure ["x"] body 0).Within 1 := by
    simp [body, Datum.Within, Datum.allClosures_closure, Datum.allClosures_list, Datum.ofForm, Datum.identifier]
  have hs : s.Reachable := Store.Reachable.empty.newRoot.define 0 "g" hg
  have hsize : 0 < s.size := by decide
  have he : e.Parsed := .list (by simp [Datum.identifier, Datum.Parsed.atom])
  have hdefines : ∀ x, ¬ e.Defines x := by
    intro x hx
    have hname : ¬ (Datum.identifier "g").Defines x := by
      rw [Datum.defines_iff]
      simp [Datum.shape, Datum.identifier, Shape.parts]
    have htext : ¬ (Datum.atom (.string "a")).Defines x := by
      rw [Datum.defines_iff]
      simp [Datum.shape, Shape.parts]
    have hshape : e.shape = .items (.identifier "g") [.atom (.string "a")] := rfl
    rw [Datum.defines_iff, hshape] at hx
    simp [Shape.parts, hname, htext] at hx
  obtain ⟨out, ρ, hout, hout', -, -, hbij, hvalue, -⟩ := reevaluation_is_stable hs hsize he hdefines 0 4 "" #[]
  have hfirst : first.1 = .ok (.closure [] [.identifier "y"] 1) := by
    simp only [first, e, s, body]
    cbv
  have hprinted : first.2.printed = "a\n" := by decide +kernel
  have hframes : first.2.store.size = 2 ∧ second.2.store.size = 3 := by decide +kernel
  -- the first call made frame 1, so the second one made the frame with the number that frame 1 goes to
  have hrenamed : ρ 1 = 2 := by
    have hmem : ρ 1 ∈ Set.Ico first.2.store.size second.2.store.size :=
      hbij.mapsTo ⟨by decide, by rw [hframes.1]; decide⟩
    rw [hframes.1, hframes.2] at hmem
    exact Nat.le_antisymm (Nat.le_of_lt_succ hmem.2) hmem.1
  have hsecond := (hvalue _ hfirst).1
  rw [Datum.renumber_closure, hrenamed] at hsecond
  have hagain : second.2.printed = "a\na\n" := by
    rw [String.empty_append] at hout
    rw [hout', ← hout, hprinted]
    decide
  exact ⟨hs, hsize, he, hdefines, hfirst, hsecond, hprinted, hagain⟩

end FrameLisp
