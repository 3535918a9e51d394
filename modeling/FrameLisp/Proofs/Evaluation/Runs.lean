/-
Runs of operations.

Frames are made, names are bound in them, and data are evaluated in them, in any order (`Operation`). A run from no
frames at all comes by many stores: those between its operations, and those where an evaluation begins or ends inside
one of them (`Moment`), whether the evaluation comes to a value or to a fault. All of these stores are coherent
(`Store.Coherent`): frames lie inside older ones, closures captured frames that are there, and a frame binds a name at
most once. The frame around a frame is the same at all moments, and the values that evaluations hold on to have
closures of the store at hand (`runs_are_coherent`).

Closures may lie in the very frame that they captured, so a store goes round in circles. The search for a name only
goes outwards, though, and ends for every frame and every name (`Coherent.search`).
-/
import Mathlib
import FrameLisp.Proofs.Evaluation.Begun
import FrameLisp.Proofs.Evaluation.Lexical
import FrameLisp.Proofs.Store.Chain

namespace FrameLisp

/-! ## Looking for a name -/

namespace Store

/-- `outer` is the frame around `g` -/
def LiesIn (s : Store) (g outer : FrameId) : Prop := ∃ frame, s.frame? g = some frame ∧ frame.outer = some outer

/-- no frame is around `g` -/
def IsRoot (s : Store) (g : FrameId) : Prop := ∃ frame, s.frame? g = some frame ∧ frame.outer = none

/-- the search for a name from a frame outwards, which ends in a frame that binds the name or without one -/
inductive Search (s : Store) (x : String) : FrameId → Option FrameId → Prop
  | found {g} (hg : g < s.size) (hx : s.binds x g = true) : Search s x g (some g)
  | outward {g outer result} (hx : s.binds x g = false) (hg : s.LiesIn g outer) (h : Search s x outer result) :
    Search s x g result
  | missing {g} (hx : s.binds x g = false) (hg : s.IsRoot g) : Search s x g none

/-- what holds of a store at every moment of a run -/
structure Coherent (s : Store) : Prop where
  /-- a frame lies inside an older one -/
  outer_lt : ∀ g outer, s.LiesIn g outer → outer < g
  /-- no way goes from frame to frame outwards without end -/
  wellFounded : WellFounded fun outer g => s.LiesIn g outer
  /-- no frame lies inside itself, however far outwards -/
  acyclic : ∀ g, ¬ Relation.TransGen s.LiesIn g g
  /-- the way outwards ends in a root frame -/
  root : ∀ g, g < s.size → ∃ root, s.Under root g ∧ s.IsRoot root
  /-- the closures in bound values captured frames that are there -/
  within : s.All (Datum.Within s.size)
  /-- a frame binds each name at most once -/
  distinct : s.Distinct
  /-- the search for a name ends, in one way only, and this is what is found -/
  search : ∀ g, g < s.size → ∀ x result, s.Search x g result ↔ s.find? g x = result
  /-- a name has the value that the frame binds which was found, and no value without such a frame -/
  value : ∀ g x, s.lookup? g x = (s.find? g x).bind fun h => (s.bindings h).value? x
  /-- a frame that was found does bind the name -/
  found : ∀ g x h, s.find? g x = some h → ∃ v, (s.bindings h).value? x = some v

variable {s t : Store} {g : FrameId} {x : String}

theorem LiesIn.lt (hs : s.WellFormed) {outer : FrameId} (h : s.LiesIn g outer) : outer < g := by
  obtain ⟨frame, hframe, houter⟩ := h
  exact hs.outer_lt g frame outer hframe houter

/-- a frame lies inside another one or is a root -/
theorem liesIn_or_isRoot (hg : g < s.size) : (∃ outer, s.LiesIn g outer) ∨ s.IsRoot g := by
  obtain ⟨frame, hframe⟩ := exists_frame hg
  cases houter : frame.outer with
  | some outer => exact Or.inl ⟨outer, frame, hframe, houter⟩
  | none => exact Or.inr ⟨frame, hframe, houter⟩

/-- the nearest frame that binds a name is the frame itself or is found from the frame around it -/
theorem find?_eq_self (hg : g < s.size) (hx : s.binds x g = true) : s.find? g x = some g := by
  obtain ⟨rest, hrest⟩ := chain_eq_cons hg
  rw [find?, hrest, List.find?_cons_of_pos hx]

theorem find?_eq_outer (hs : s.WellFormed) (hx : s.binds x g = false) {outer : FrameId} (h : s.LiesIn g outer) :
    s.find? g x = s.find? outer x := by
  have hlt := h.lt hs
  obtain ⟨frame, hframe, houter⟩ := h
  exact find?_inner hframe houter hlt hx

theorem find?_eq_none (hx : s.binds x g = false) (h : s.IsRoot g) : s.find? g x = none := by
  obtain ⟨frame, hframe, houter⟩ := h
  rw [find?, chain_root hframe houter, List.find?_cons_of_neg (by simp [hx]), List.find?_nil]

/-- what a search ends with is found -/
theorem Search.find?_eq (hs : s.WellFormed) {result : Option FrameId} (h : s.Search x g result) :
    s.find? g x = result := by
  induction h with
  | found hg hx => exact find?_eq_self hg hx
  | outward hx hg _ ih => exact (find?_eq_outer hs hx hg).trans ih
  | missing hx hg => exact find?_eq_none hx hg

/-- **Every search ends** -/
theorem WellFormed.search (hs : s.WellFormed) (hg : g < s.size) (x : String) : s.Search x g (s.find? g x) := by
  induction g using Nat.strong_induction_on with
  | _ g ih =>
    cases hx : s.binds x g with
    | true =>
      rw [find?_eq_self hg hx]
      exact .found hg hx
    | false =>
      rcases liesIn_or_isRoot hg with ⟨outer, houter⟩ | hroot
      · have hlt := houter.lt hs
        rw [find?_eq_outer hs hx houter]
        exact .outward hx houter (ih outer hlt (hlt.trans hg))
      · rw [find?_eq_none hx hroot]
        exact .missing hx hroot

theorem WellFormed.under_root (hs : s.WellFormed) (hg : g < s.size) : ∃ root, s.Under root g ∧ s.IsRoot root := by
  refine hs.induct (motive := fun g => ∃ root, s.Under root g ∧ s.IsRoot root) ?_ hg
  intro g frame hframe ih
  cases houter : frame.outer with
  | some outer =>
    obtain ⟨root, hunder, hroot⟩ := ih outer houter
    exact ⟨root, .inner hframe houter hunder, hroot⟩
  | none => exact ⟨g, .self, frame, hframe, houter⟩

theorem WellFormed.lt_of_transGen (hs : s.WellFormed) {outer : FrameId} (h : Relation.TransGen s.LiesIn g outer) :
    outer < g := by
  induction h with
  | single h => exact h.lt hs
  | tail _ h ih => exact (h.lt hs).trans ih

theorem WellFormed.coherent (hs : s.WellFormed) (hdistinct : s.Distinct) : s.Coherent := by
  have hfound : ∀ g x h, s.find? g x = some h → ∃ v, (s.bindings h).value? x = some v := by
    intro g x h hfind
    have hbinds : s.binds x h = true := List.find?_some hfind
    rwa [binds_eq_isSome, Option.isSome_iff_exists] at hbinds
  refine ⟨fun g outer h => h.lt hs, ?_, fun g h => ?_, fun g hg => hs.under_root hg, hs.within, hdistinct,
    fun g hg x result => ?_, fun g x => lookup?_eq_bind g x, hfound⟩
  · exact Subrelation.wf (fun h => h.lt hs) Nat.lt_wfRel.wf
  · exact lt_irrefl g (hs.lt_of_transGen h)
  · refine ⟨fun h => h.find?_eq hs, fun h => ?_⟩
    rw [← h]
    exact hs.search hg x

end Store

/-! ## Operations -/

/-- what is done with frames: one is made, names are bound in one, or a datum is evaluated in one -/
inductive Operation where
  | root (pairs : List (String × Datum))
  | child (outer : FrameId) (pairs : List (String × Datum))
  /-- the frame of a call with these arguments is made -/
  | extend (captured : FrameId) (params : List String) (args : List Datum)
  | define (f : FrameId) (x : String) (v : Datum)
  | update (f : FrameId) (pairs : List (String × Datum))
  | evaluate (room depth : Nat) (f : FrameId) (d : Datum)

namespace Operation

def perform : Operation → Run Unit
  | root pairs => do
    let _ ← Effect.newFrame (Bindings.ofPairs pairs) none
  | child outer pairs => do
    let _ ← Effect.newFrame (Bindings.ofPairs pairs) (some outer)
  | extend captured params args => do
    let _ ← Effect.newFrame (Bindings.ofPairs (Bindings.ofParams params args)) (some captured)
  | define f x v => Effect.define f x v
  | update f pairs => Effect.defineAll f pairs
  | evaluate room depth f d => do
    let _ ← d.evaluate room depth f

/-- the world that an operation leaves, also when it ends with a fault -/
def after (o : Operation) (w : World) : World := (o.perform w).2

/-- the frames are there, the given values have closures of frames that are there, and what is evaluated was read -/
def Allowed (s : Store) : Operation → Prop
  | root pairs => ∀ pair ∈ pairs, pair.2.Within s.size
  | child outer pairs => outer < s.size ∧ ∀ pair ∈ pairs, pair.2.Within s.size
  | extend captured _ args => captured < s.size ∧ ∀ a ∈ args, a.Within s.size
  | define f _ v => f < s.size ∧ v.Within s.size
  | update f pairs => f < s.size ∧ ∀ pair ∈ pairs, pair.2.Within s.size
  | evaluate _ _ f d => f < s.size ∧ d.Parsed

/-- every operation of a run is allowed where it comes -/
def Admissible : World → List Operation → Prop
  | _, [] => True
  | w, o :: os => o.Allowed w.store ∧ Admissible (o.after w) os

/-- an evaluation that is begun in a run, by an operation or inside the evaluation of one -/
inductive Begun : World → List Operation → Nat → Evaluation → Prop
  | here {w room depth f d os y} (h : Evaluation.Inside room ⟨depth, d, f, w⟩ y) :
    Begun w (evaluate room depth f d :: os) room y
  | later {w o os room y} (h : Begun (o.after w) os room y) : Begun w (o :: os) room y

/-- the worlds that a run comes by: between operations, and where an evaluation begins or ends -/
inductive Moment : World → List Operation → World → Prop
  | now {w os} : Moment w os w
  | begins {w os room y} (h : Begun w os room y) : Moment w os y.world
  | ends {w os room y} (h : Begun w os room y) : Moment w os (y.run room).2
  | later {w o os v} (h : Moment (o.after w) os v) : Moment w (o :: os) v

/-- the world after all operations of a run -/
def afterAll (w : World) (os : List Operation) : World := os.foldl (fun w o => o.after w) w

end Operation

namespace Store

/-- binding names at once is binding one after another -/
theorem update_assignAll (s : Store) (f : FrameId) (pairs : List (String × Datum)) :
    (s.update f fun bs => bs.assignAll pairs) = pairs.foldl (fun s pair => s.define f pair.1 pair.2) s := by
  induction pairs generalizing s with
  | nil =>
    refine ext_frame? fun g => ?_
    rw [frame?_update]
    split
    · exact Option.map_id'
    · rfl
  | cons pair pairs ih =>
    rw [List.foldl_cons, ← ih]
    refine ext_frame? fun g => ?_
    rw [frame?_update, frame?_update, frame?_define]
    split
    · rw [Option.map_map]
      rfl
    · rfl

theorem Reachable.defineAll {s : Store} (h : s.Reachable) (f : FrameId) {pairs : List (String × Datum)}
    (hpairs : ∀ pair ∈ pairs, pair.2.Within s.size) :
    (pairs.foldl (fun s pair => s.define f pair.1 pair.2) s).Reachable := by
  induction pairs generalizing s with
  | nil => exact h
  | cons pair pairs ih =>
    rw [List.forall_mem_cons] at hpairs
    refine ih (h.define f pair.1 hpairs.1) fun other hother => ?_
    rw [size_define]
    exact hpairs.2 other hother

theorem extends_update (s : Store) (f : FrameId) (pairs : List (String × Datum)) :
    s.Extends (s.update f fun bs => bs.assignAll pairs) := by
  rw [update_assignAll]
  induction pairs generalizing s with
  | nil => exact Extends.refl s
  | cons pair pairs ih => exact (changesOnly_define s f pair.1 pair.2).extends.trans (ih _)

end Store

namespace Operation

variable {w v : World} {o : Operation} {os : List Operation} {room : Nat} {y : Evaluation}

/-! ## What an operation does -/

theorem after_evaluate (room depth : Nat) (f : FrameId) (d : Datum) (w : World) :
    (evaluate room depth f d).after w = (d.evaluate room depth f w).2 := by
  show ((d.evaluate room depth f >>= fun _ => pure ()) w).2 = _
  cases h : d.evaluate room depth f w with
  | mk r w' =>
    cases r with
    | ok v => rw [Effect.bind_ok h, Effect.pure_apply]
    | error fault => rw [Effect.bind_error h]

/-- operations only add: frames stay, each inside the same one, and names stay bound -/
theorem extends_after (o : Operation) (w : World) : w.store.Extends (o.after w).store := by
  cases o with
  | root pairs => exact Store.extends_push w.store _ none
  | child outer pairs => exact Store.extends_push w.store _ (some outer)
  | extend captured params args => exact Store.extends_push w.store _ (some captured)
  | define f x v => exact (Store.changesOnly_define w.store f x v).extends
  | update f pairs => exact Store.extends_update w.store f pairs
  | evaluate room depth f d =>
    rw [after_evaluate]
    exact Datum.evaluate_steady Store.steady_extends room depth d f w

theorem extends_afterAll (w : World) (os : List Operation) : w.store.Extends (afterAll w os).store := by
  induction os generalizing w with
  | nil => exact Store.Extends.refl _
  | cons o os ih => exact (extends_after o w).trans (ih (o.after w))

/-- an allowed operation leaves a reachable store -/
theorem Allowed.reachable (ho : o.Allowed w.store) (h : w.store.Reachable) : (o.after w).store.Reachable := by
  cases o with
  | root pairs => exact h.frame ho fun g hg => by cases hg
  | child outer pairs =>
    refine h.frame ho.2 fun g hg => ?_
    cases hg
    exact ho.1
  | extend captured params args =>
    refine h.frame (Bindings.all_ofParams Datum.allClosures_absent ho.2 params) fun g hg => ?_
    cases hg
    exact ho.1
  | define f x v => exact h.define f x ho.2
  | update f pairs =>
    show (w.store.update f fun bs => bs.assignAll pairs).Reachable
    rw [Store.update_assignAll]
    exact h.defineAll f ho.2
  | evaluate room depth f d =>
    rw [after_evaluate]
    exact h.evaluate room depth ho.1 ho.2.allClosures

end Operation

/-! ## Moments of a run -/

namespace Evaluation

/-- all that an evaluation holds on to has closures that captured frames which are there -/
structure InOrder (room : Nat) (y : Evaluation) : Prop where
  frame_lt : y.frame < y.world.store.size
  datum : y.datum.Within y.world.store.size
  /-- a function and its arguments, as they are evaluated one after another -/
  values : ∀ n head args, y.depth = n + 1 → y.datum.HasShape (.items head args) → ∀ front vs w',
    front <+: head :: args → (Datum.evaluate room n).each y.frame front (y.world.entering y.datum) = (.ok vs, w') →
      ∀ v ∈ vs, v.Within w'.store.size
  result : ∀ v w', y.run room = (.ok v, w') → v.Within w'.store.size

variable {room : Nat} {y : Evaluation}

theorem Ready.inOrder (h : y.Ready) : y.InOrder room := by
  refine ⟨h.frame_lt, h.within _ List.mem_cons_self, ?_, fun v w' hv => ?_⟩
  · intro n head args _ hd front vs w' hfront hvs
    have hparts : (y.world.entering y.datum).store.Ready y.frame (head :: args) := Store.Ready.parts h hd
    have hitems : (y.world.entering y.datum).store.Ready y.frame front := hparts.subset fun d hmem => hfront.subset hmem
    exact (each_within hitems hvs).2
  · exact ((Datum.evaluate_wellFormed room y.depth y.datum y.frame y.world h).of_ok hv).2

/-- the store that is left is well-formed, also after a fault -/
theorem Ready.grown (h : y.Ready) : y.world.store.Grown (y.run room).2.store := by
  have hends := Datum.evaluate_wellFormed room y.depth y.datum y.frame y.world h
  cases hrun : y.run room with
  | mk r w' =>
    cases r with
    | ok v => exact (hends.of_ok hrun).1
    | error fault => exact (hends.of_error hrun).1

end Evaluation

namespace Operation

variable {w v : World} {os : List Operation} {room : Nat} {y : Evaluation}

/-- every evaluation of a run begins in order -/
theorem Begun.ready (h : Begun w os room y) (hos : Admissible w os) (hw : w.store.Reachable) : y.Ready := by
  induction h with
  | here hin =>
    obtain ⟨hf, hd⟩ := hos.1
    refine hin.ready ⟨hw.wellFormed, hf, fun e he => ?_⟩
    rw [List.mem_singleton.1 he]
    exact hd.allClosures
  | later _ ih => exact ih hos.2 (hos.1.reachable hw)

theorem Begun.distinct (h : Begun w os room y) (hos : Admissible w os) (hw : w.store.Reachable) :
    y.world.store.Distinct := by
  induction h with
  | here hin => exact hin.before Store.steady_distinct hw.distinct
  | later _ ih => exact ih hos.2 (hos.1.reachable hw)

/-- what an evaluation of a run leaves is still there when the run is over -/
theorem Begun.extends_afterAll (h : Begun w os room y) : (y.run room).2.store.Extends (afterAll w os).store := by
  induction h with
  | @here w room depth f d os y hin =>
    have hleft : (Evaluation.run room ⟨depth, d, f, w⟩).2.store.Extends
        ((evaluate room depth f d).after w).store := by
      rw [after_evaluate]
      exact Store.Extends.refl _
    exact ((hin.after Store.steady_extends).trans hleft).trans (Operation.extends_afterAll _ os)
  | later _ ih => exact ih

theorem Moment.coherent (h : Moment w os v) (hos : Admissible w os) (hw : w.store.Reachable) : v.store.Coherent := by
  induction h with
  | now => exact hw.wellFormed.coherent hw.distinct
  | begins hy => exact (hy.ready hos hw).wellFormed.coherent (hy.distinct hos hw)
  | @ends w os room y hy =>
    refine (hy.ready hos hw).grown.wellFormed.coherent ?_
    exact Datum.evaluate_steady Store.steady_distinct room y.depth y.datum y.frame y.world (hy.distinct hos hw)
  | later _ ih => exact ih hos.2 (hos.1.reachable hw)

theorem Moment.extends_afterAll (h : Moment w os v) : v.store.Extends (afterAll w os).store := by
  induction h with
  | @now w os => exact Operation.extends_afterAll w os
  | @begins w os room y hy =>
    have hrun : y.world.store.Extends (y.run room).2.store :=
      Datum.evaluate_steady Store.steady_extends room y.depth y.datum y.frame y.world
    exact hrun.trans hy.extends_afterAll
  | ends hy => exact hy.extends_afterAll
  | later _ ih => exact ih

/-- at all moments of a run the same frame is around a frame -/
theorem Moment.outer_eq {v' : World} (h : Moment w os v) (h' : Moment w os v') {g : FrameId} {frame frame' : Frame}
    (hframe : v.store.frame? g = some frame) (hframe' : v'.store.frame? g = some frame') :
    frame.outer = frame'.outer := by
  obtain ⟨last, hlast, houter, -⟩ := h.extends_afterAll.frames g frame hframe
  obtain ⟨last', hlast', houter', -⟩ := h'.extends_afterAll.frames g frame' hframe'
  rw [hlast] at hlast'
  cases hlast'
  exact houter.symm.trans houter'

end Operation

/-- **Stores are coherent at every moment of every run.** The frame around a frame is always the same, and every
evaluation holds on to closures of frames that are there. -/
theorem runs_are_coherent {os : List Operation} (hos : Operation.Admissible World.empty os) :
    (∀ v, Operation.Moment World.empty os v → v.store.Coherent) ∧
    (∀ v v', Operation.Moment World.empty os v → Operation.Moment World.empty os v' → ∀ g frame frame',
      v.store.frame? g = some frame → v'.store.frame? g = some frame' → frame.outer = frame'.outer) ∧
    (∀ room y, Operation.Begun World.empty os room y → y.InOrder room) := by
  have hempty : World.empty.store.Reachable := .empty
  refine ⟨fun v hv => hv.coherent hos hempty, ?_, fun room y hy => (hy.ready hos hempty).inOrder⟩
  intro v v' hv hv' g frame frame' hframe hframe'
  exact hv.outer_eq hv' hframe hframe'

/-- a run that binds a function in the frame that the function captured, makes frames inside that one, and ends with
an evaluation that calls the function inside a let form until it is too deep -/
theorem circular_store_is_coherent :
    let loop := Datum.ofForm .function [.list [.identifier "n"], .list [.identifier "loop", .identifier "n"]]
    let again := Datum.ofForm .block
      [.list [.list [.identifier "k", .identifier "loop"]], .list [.identifier "k", .identifier "b"]]
    let os : List Operation :=
      [.root [("a", .text "s")], .evaluate 5 5 0 (.ofForm .define [.identifier "loop", loop]),
        .child 0 [("b", .text "t")], .extend 0 ["p", "p"] [.text "u"], .update 1 [("c", .absent), ("c", .text "v")],
        .evaluate 5 5 1 again]
    let w := Operation.afterAll World.empty os
    Operation.Admissible World.empty os ∧
      w.store.lookup? 1 "loop" = some (.closure ["n"] [.list [.identifier "loop", .identifier "n"]] 0) ∧
      w.store.size = 7 ∧
      (again.evaluate 5 5 1 (Operation.afterAll World.empty (os.take 5))).1.toOption.isNone = true ∧
      (∀ v, Operation.Moment World.empty os v → v.store.Coherent) ∧
      (∀ room y, Operation.Begun World.empty os room y → y.InOrder room) := by
  intro loop again os w
  have hloop : (Datum.ofForm .define [.identifier "loop", loop]).Parsed := by
    simp [loop, Datum.ofForm, Datum.identifier, Datum.parsed_list, Datum.Parsed.atom]
  have hagain : again.Parsed := by
    simp [again, Datum.ofForm, Datum.identifier, Datum.parsed_list, Datum.Parsed.atom]
  have hos : Operation.Admissible World.empty os := by
    refine ⟨by simp [Operation.Allowed, Datum.Within], ⟨by decide +kernel, hloop⟩,
      ⟨by decide +kernel, by simp [Datum.Within]⟩, ⟨by decide +kernel, by simp [Datum.Within]⟩,
      ⟨by decide +kernel, by simp [Datum.Within]⟩, ⟨by decide +kernel, hagain⟩, trivial⟩
  have hloops : w.store.lookup? 1 "loop" = some (.closure ["n"] [.list [.identifier "loop", .identifier "n"]] 0) := by
    simp only [w, os, loop, again]
    cbv
  obtain ⟨hmoments, -, horder⟩ := runs_are_coherent hos
  exact ⟨hos, hloops, by decide +kernel, by decide +kernel, hmoments, horder⟩

end FrameLisp
