/-
A frame binds each name once.

All that evaluation does to a store is to make frames for calls and let forms and to bind names. A relation between
stores that both of these keep (`Store.Steady`) is kept by every evaluation (`Datum.evaluate_steady`), so what holds of
every frame that is made and stays when a name is bound holds of every reachable store. The names of a frame are of this
kind: none comes twice (`Reachable.distinct`). A frame is then known by the order of its names and by its values, and
an evaluation that binds no name in its frame leaves all frames exactly as they were (`evaluate_keeps`).
-/
import FrameLisp.Proofs.Evaluation.Reachable

namespace FrameLisp

/-! ## What evaluation does to a store -/

/-- a relation between stores that making a frame inside another one keeps, and that binding a name keeps -/
structure Store.Steady (R : Store → Store → Prop) : Prop where
  refl : ∀ s, R s s
  trans : ∀ s t u, R s t → R t u → R s u
  push : ∀ s pairs outer, R s (s.push (Bindings.ofPairs pairs) (some outer))
  define : ∀ s f x v, R s (s.define f x v)

namespace Evaluator

variable {R : Store → Store → Prop} {α β : Type}

theorem steady_pure (h : Store.Steady R) (a : α) : (pure a : Run α).Moves R := fun w => h.refl w.store

theorem steady_fail (h : Store.Steady R) (fault : Fault) : (Effect.fail fault : Run α).Moves R :=
  fun w => h.refl w.store

theorem steady_bind (h : Store.Steady R) {x : Run α} {next : α → Run β} (hx : x.Moves R)
    (hnext : ∀ a, (next a).Moves R) : (x >>= next).Moves R :=
  hx.bind hnext h.trans

variable {ev : Evaluator} (h : Store.Steady R) (hev : ∀ d f, (ev d f).Moves R)

include h hev

theorem each_steady (f : FrameId) (ds : List Datum) : (ev.each f ds).Moves R := by
  induction ds with
  | nil => exact steady_pure h _
  | cons d ds ih =>
    refine steady_bind h (hev d f) ?_
    intro v
    exact steady_bind h ih fun vs => steady_pure h _

theorem sequence_steady (f : FrameId) (last : Datum) (ds : List Datum) : (ev.sequence f last ds).Moves R := by
  induction ds generalizing last with
  | nil => exact steady_pure h _
  | cons d ds ih => exact steady_bind h (hev d f) ih

theorem fill_steady (f : FrameId) (bindings : List Datum) : (ev.fill f bindings).Moves R := by
  induction bindings with
  | nil => exact steady_pure h _
  | cons b bindings ih =>
    unfold Evaluator.fill
    split
    · exact steady_fail h _
    · next x body _ =>
      refine steady_bind h (hev body f) fun v => ?_
      exact steady_bind h (fun w => h.define w.store f x v) fun _ => ih

theorem call_steady (room : Nat) (function : Datum) (args : List Datum) : (ev.call room function args).Moves R := by
  unfold Evaluator.call
  split
  · refine steady_bind h (fun w => h.push w.store _ _) ?_
    intro inner
    exact sequence_steady h hev inner _ _
  · exact Effect.moves_of_store_eq h.refl fun w => Builtin.call_store room _ args w
  · exact steady_fail h _

theorem perform_steady (room : Nat) (f : FrameId) (shape : Shape) : (shape.perform room ev f).Moves R := by
  cases shape with
  | value v => exact steady_pure h v
  | name x =>
    refine Effect.moves_of_store_eq h.refl fun w => ?_
    rw [Shape.perform, lookup_world]
  | items head args =>
    rw [perform_items]
    refine steady_bind h (each_steady h hev f _) ?_
    intro values
    cases values with
    | nil => exact steady_pure h _
    | cons function values =>
      rw [Evaluator.combine]
      split
      · exact call_steady h hev room function values
      · exact steady_pure h _
  | define x body =>
    refine steady_bind h (hev body f) fun v => ?_
    exact steady_bind h (fun w => h.define w.store f x v) fun _ => steady_pure h v
  | conditional condition consequent alternative =>
    refine steady_bind h (hev condition f) fun v => ?_
    split
    · exact hev consequent f
    · cases alternative with
      | none => exact steady_pure h _
      | some alternative => exact hev alternative f
  | block bindings body =>
    refine steady_bind h (fun w => h.push w.store [] f) fun inner => ?_
    exact steady_bind h (fill_steady h hev inner bindings) fun _ => hev body inner
  | function params body => exact steady_pure h _
  | malformed fault => exact steady_fail h fault

end Evaluator

/-- what making frames and binding names keeps, every evaluation keeps -/
theorem Datum.evaluate_steady {R : Store → Store → Prop} (h : Store.Steady R) (room depth : Nat) (d : Datum)
    (f : FrameId) : (d.evaluate room depth f).Moves R := by
  induction depth generalizing d f with
  | zero => exact Evaluator.steady_fail h _
  | succ depth ih =>
    rw [evaluate_succ, evaluateWith_eq]
    refine Evaluator.steady_bind h (Effect.moves_of_store_eq h.refl fun w => ?_) fun _ => ?_
    · rw [Effect.noteAll_apply]
    · exact Evaluator.perform_steady h ih room f d.shape

/-! ## Names -/

namespace Bindings

/-- bindings of distinct names are known by the order of the names and by the values -/
theorem ext_of_nodup {bs cs : Bindings} (hbs : bs.names.Nodup) (hnames : bs.names = cs.names)
    (hvalues : ∀ x, bs.value? x = cs.value? x) : bs = cs := by
  induction bs generalizing cs with
  | nil =>
    cases cs with
    | nil => rfl
    | cons c cs => cases hnames
  | cons b bs ih =>
    cases cs with
    | nil => cases hnames
    | cons c cs =>
      obtain ⟨hname, hrest⟩ := List.cons_eq_cons.1 hnames
      obtain ⟨hb, hnodup⟩ := List.nodup_cons.1 hbs
      have hhead : b.2 = c.2 := by
        have hvalue := hvalues b.1
        rw [value?_cons, value?_cons, if_pos rfl, if_pos hname.symm] at hvalue
        exact Option.some.inj hvalue
      have htail : bs = cs := by
        refine ih hnodup hrest fun x => ?_
        by_cases hx : b.1 = x
        · -- the first name comes in neither rest
          have hbs : value? bs x = none := value?_eq_none_iff.2 (hx ▸ hb)
          have hnames : names bs = names cs := hrest
          have hcs : value? cs x = none := value?_eq_none_iff.2 (hnames ▸ hx ▸ hb)
          rw [hbs, hcs]
        · have hvalue := hvalues x
          rwa [value?_cons, value?_cons, if_neg hx, if_neg fun h => hx (hname.trans h)] at hvalue
      rw [htail, Prod.ext hname hhead]

end Bindings

namespace Store

variable {s t : Store}

/-- every frame binds each name at most once -/
def Distinct (s : Store) : Prop := ∀ g frame, s.frame? g = some frame → frame.bindings.names.Nodup

theorem Distinct.push (h : s.Distinct) (pairs : List (String × Datum)) (outer : Option FrameId) :
    (s.push (Bindings.ofPairs pairs) outer).Distinct := by
  intro g frame hg
  rw [frame?_push] at hg
  split at hg
  · cases hg
    exact Bindings.names_ofPairs_nodup pairs
  · exact h g frame hg

theorem Distinct.define (h : s.Distinct) (f : FrameId) (x : String) (v : Datum) : (s.define f x v).Distinct := by
  intro g frame hg
  rw [frame?_define] at hg
  split at hg
  · obtain ⟨old, hold, rfl⟩ := Option.map_eq_some_iff.1 hg
    exact Bindings.names_assign_nodup (h g old hold) x v
  · exact h g frame hg

theorem steady_distinct : Steady fun s t => s.Distinct → t.Distinct :=
  ⟨fun _ => id, fun _ _ _ hst htu => htu ∘ hst, fun _ pairs outer h => h.push pairs (some outer),
    fun _ f x v h => h.define f x v⟩

/-- in a reachable store every frame binds each name at most once -/
theorem Reachable.distinct (h : s.Reachable) : s.Distinct := by
  induction h with
  | empty =>
    intro g frame hg
    rw [frame?_empty] at hg
    cases hg
  | frame _ _ _ ih => exact ih.push _ _
  | define _ f x _ ih => exact ih.define f x _
  | @evaluate w _ room depth d f _ _ ih => exact Datum.evaluate_steady steady_distinct room depth d f w ih

/-- a change that binds no name leaves the frame at hand exactly as it was, and so all frames -/
theorem ChangesOnly.kept {f : FrameId} {names : String → Prop} (h : s.ChangesOnly f names t) (hnames : ∀ x, ¬ names x)
    (ht : t.Distinct) {g : FrameId} (hg : g < s.size) : t.frame? g = s.frame? g := by
  by_cases hgf : g = f
  · subst hgf
    obtain ⟨⟨bs, outer⟩, hframe⟩ := exists_frame hg
    obtain ⟨⟨bs', outer'⟩, hframe', houter, hfront, hvalues⟩ := h.here _ hframe
    have hnodup : bs'.names.Nodup := ht _ _ hframe'
    have hvalues : ∀ x, bs'.value? x = bs.value? x := fun x => hvalues x (hnames x)
    have hsub : bs'.names ⊆ bs.names := by
      intro x hx
      by_contra hnot
      rw [← Bindings.value?_eq_none_iff, ← hvalues x, Bindings.value?_eq_none_iff] at hnot
      exact hnot hx
    have hsame : bs'.names = bs.names := (hfront.eq_of_length_le (hnodup.subperm hsub).length_le).symm
    have houter : outer' = outer := houter
    rw [hframe, hframe', Bindings.ext_of_nodup hnodup hsame hvalues, houter]
  · exact h.elsewhere g hg hgf

end Store

/-- **An evaluation that defines nothing in its frame changes no frame** -/
theorem Datum.evaluate_keeps {d : Datum} (hdefines : ∀ x, ¬ d.Defines x) (room depth : Nat) (f : FrameId) {w : World}
    (hw : w.store.Distinct) {g : FrameId} (hg : g < w.store.size) :
    (d.evaluate room depth f w).2.store.frame? g = w.store.frame? g := by
  have hlocal : w.store.ChangesOnly f d.Defines _ := evaluate_changesOnly room depth d f w
  exact hlocal.kept hdefines (evaluate_steady Store.steady_distinct room depth d f w hw) hg

end FrameLisp
