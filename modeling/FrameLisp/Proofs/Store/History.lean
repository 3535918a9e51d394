/-
The history of frames.

Frames are made and names are bound in them, in any order. The history of such a run (`History.ofRun`) is a mere list of
what was done: around which frame each frame was made, and which name was bound to which value in which frame. Nothing
is overwritten in it. Whether operations are possible one after another depends on nothing but how many frames there are
(`History.Possible`).

The store is its history (`store_is_its_history`): a frame lists its names in the order in which they were first bound
(`Follows.names`); what is found for a name is the nearest frame around in which the name was bound at all
(`Follows.find`); and its value there is the last one that was given to it (`Follows.lookup`). What is done with one
frame changes nothing that is found from frames outside it.

The proof keeps to one fact, by induction on the run: a frame is what comes of all that was bound in it, one after
another (`Store.Records`).
-/
import FrameLisp.Proofs.Evaluation.Runs
import FrameLisp.Proofs.Store.Chain

namespace FrameLisp

/-- what was done with frames -/
structure History where
  /-- the frames around the frames 0, 1, 2, ... -/
  outers : List (Option FrameId)
  /-- which name was bound to which value in which frame, in order -/
  log : List (FrameId × String × Datum)

namespace History

def empty : History := ⟨[], []⟩

/-- names are bound in a frame, one after another -/
def give (h : History) (f : FrameId) (pairs : List (String × Datum)) : History :=
  { h with log := h.log ++ pairs.map (Prod.mk f) }

/-- a frame is made, and names are bound in it -/
def make (h : History) (outer : Option FrameId) (pairs : List (String × Datum)) : History :=
  { outers := h.outers ++ [outer], log := h.log ++ pairs.map (Prod.mk h.outers.length) }

/-- what a call binds: each parameter to the argument at its place, if there is one -/
def arguments (params : List String) (args : List Datum) : List (String × Datum) :=
  params.zipIdx.map fun param => (param.1, args.getD param.2 .absent)

/-- the history after one more operation -/
def record (h : History) : Operation → History
  | .root pairs => h.make none pairs
  | .child outer pairs => h.make (some outer) pairs
  | .extend captured params args => h.make (some captured) (arguments params args)
  | .define f x v => h.give f [(x, v)]
  | .update f pairs => h.give f pairs
  | .evaluate .. => h

def ofRun (os : List Operation) : History := os.foldl record empty

/-- an operation on frames uses frames that have been made -/
def Admits (h : History) : Operation → Prop
  | .root _ => True
  | .child outer _ => outer < h.outers.length
  | .extend captured _ _ => captured < h.outers.length
  | .define f _ _ => f < h.outers.length
  | .update f _ => f < h.outers.length
  | .evaluate .. => False

/-- operations on frames that are possible one after another -/
def Possible : History → List Operation → Prop
  | _, [] => True
  | h, o :: os => h.Admits o ∧ Possible (h.record o) os

/-! ## What a history says -/

variable (h : History)

/-- `outer` is the frame around `g` -/
def LiesIn (g outer : FrameId) : Prop := h.outers[g]? = some (some outer)

/-- `r` is `g` or lies around it, however far outwards -/
def Around (g r : FrameId) : Prop := Relation.ReflTransGen h.LiesIn g r

/-- the name was bound in the frame -/
def Gives (f : FrameId) (x : String) : Prop := ∃ v, (f, x, v) ∈ h.log

/-- `r` is the nearest frame, from `g` outwards, in which the name was bound -/
inductive Nearest (x : String) : FrameId → FrameId → Prop
  | here {g} (hg : h.Gives g x) : Nearest x g g
  | outward {g outer r} (hg : ¬ h.Gives g x) (houter : h.LiesIn g outer) (hr : Nearest x outer r) : Nearest x g r

/-- the names that were bound in a frame, with their values, in order -/
def given (f : FrameId) : List (String × Datum) := (h.log.filter (·.1 == f)).map Prod.snd

/-- the value that was given last to the name in the frame -/
def last? (f : FrameId) (x : String) : Option Datum :=
  (h.log.filter fun entry => entry.1 == f && entry.2.1 == x).getLast?.map fun entry => entry.2.2

end History

/-- a store that is as its history says -/
structure Store.Follows (s : Store) (h : History) : Prop where
  size : s.size = h.outers.length
  outer : ∀ g frame, s.frame? g = some frame → h.outers[g]? = some frame.outer
  /-- a frame lists the names in the order in which they were first bound -/
  names : ∀ g frame, s.frame? g = some frame → frame.bindings.names = ((h.given g).map Prod.fst).eraseDups
  /-- the nearest frame is found in which the name was bound -/
  find : ∀ g, g < s.size → ∀ x r, s.find? g x = some r ↔ h.Nearest x g r
  /-- and the value is looked up that was given last to it there -/
  lookup : ∀ g, g < s.size → ∀ x v w, w.store = s →
    (Run.lookup g x w = (.ok v, w) ↔ ∃ r, h.Nearest x g r ∧ h.last? r x = some v)
  /-- a name is unbound just if it was bound in no frame around -/
  unbound : ∀ g, g < s.size → ∀ x w, w.store = s →
    (Run.lookup g x w = (.error (.unbound x), w) ↔ ∀ r, h.Around g r → ¬ h.Gives r x)
  missing : ∀ g, g < s.size → ∀ x, (s.find? g x).isSome = false ↔ ∀ r, h.Around g r → ¬ h.Gives r x

/-! ## Names bound one after another -/

namespace Bindings

theorem ofPairs_append (front back : List (String × Datum)) :
    ofPairs (front ++ back) = (ofPairs front).assignAll back := List.foldl_append

/-- names are listed in the order in which they come first -/
theorem names_ofPairs (pairs : List (String × Datum)) : (ofPairs pairs).names = (pairs.map Prod.fst).eraseDups := by
  induction pairs using List.reverseRecOn with
  | nil => rfl
  | append_singleton pairs pair ih =>
    have hlast : ofPairs (pairs ++ [pair]) = (ofPairs pairs).assign pair.1 pair.2 := ofPairs_append pairs [pair]
    rw [hlast, names_assign, ih, List.map_append, List.eraseDups_append]
    by_cases hmem : pair.1 ∈ pairs.map Prod.fst
    · have hnone : ([pair].map Prod.fst).removeAll (pairs.map Prod.fst) = [] := by
        simp only [List.removeAll, List.map_cons, List.map_nil, List.filter_cons, List.filter_nil]
        simp [hmem]
      rw [if_pos (List.mem_eraseDups.2 hmem), hnone, List.eraseDups_nil, List.append_nil]
    · have hsome : ([pair].map Prod.fst).removeAll (pairs.map Prod.fst) = [pair.1] := by
        simp only [List.removeAll, List.map_cons, List.map_nil, List.filter_cons, List.filter_nil]
        simp [hmem]
      have hmem' : pair.1 ∉ (pairs.map Prod.fst).eraseDups := fun hin => hmem (List.mem_eraseDups.1 hin)
      rw [if_neg hmem', hsome]
      rfl

/-- a name has the last value that it is bound to -/
theorem value?_ofPairs (pairs : List (String × Datum)) (x : String) :
    (ofPairs pairs).value? x = (pairs.filter (·.1 == x)).getLast?.map Prod.snd := by
  induction pairs using List.reverseRecOn with
  | nil => rfl
  | append_singleton pairs pair ih =>
    have hlast : ofPairs (pairs ++ [pair]) = (ofPairs pairs).assign pair.1 pair.2 := ofPairs_append pairs [pair]
    rw [hlast, value?_assign, ih, List.filter_append]
    by_cases hx : pair.1 = x
    · have hkept : [pair].filter (·.1 == x) = [pair] := by simp [hx]
      rw [if_pos hx.symm, hkept, List.getLast?_concat, Option.map_some]
    · have hgone : [pair].filter (·.1 == x) = [] := by simp [hx]
      rw [if_neg (Ne.symm hx), hgone, List.append_nil]

theorem ofParams_eq_arguments (params : List String) (args : List Datum) :
    ofParams params args = History.arguments params args := by
  have hfrom : ∀ place, ofParams params (args.drop place)
      = (params.zipIdx place).map fun param => (param.1, args.getD param.2 .absent) := by
    induction params with
    | nil => exact fun _ => rfl
    | cons param params ih =>
      intro place
      rw [List.zipIdx_cons, List.map_cons, ← ih (place + 1)]
      cases hargs : args.drop place with
      | nil =>
        have hnone : args[place]? = none := by
          rw [List.getElem?_eq_none_iff, ← List.drop_eq_nil_iff, hargs]
        have hrest : args.drop (place + 1) = [] := by rw [← List.drop_drop, hargs, List.drop_nil]
        rw [ofParams, hrest, List.getD_eq_getElem?_getD, hnone, Option.getD_none]
      | cons arg rest =>
        have hsome : args[place]? = some arg := by
          rw [← List.head?_drop, hargs, List.head?_cons]
        have hrest : args.drop (place + 1) = rest := by rw [← List.drop_drop, hargs]; rfl
        rw [ofParams, hrest, List.getD_eq_getElem?_getD, hsome, Option.getD_some]
  exact hfrom 0

end Bindings

/-! ## A frame is what was bound in it -/

/-- every frame is what comes of the names that were bound in it one after another, and lies inside an older one -/
structure Store.Records (s : Store) (h : History) : Prop where
  frames : ∀ g, s.frame? g = h.outers[g]?.map fun outer => ⟨Bindings.ofPairs (h.given g), outer⟩
  outer_lt : ∀ g outer, h.LiesIn g outer → outer < g
  logged : ∀ entry ∈ h.log, entry.1 < h.outers.length

namespace History

variable {h : History} {f g r : FrameId} {x : String} {v : Datum} {pairs : List (String × Datum)} {o : Operation}

theorem given_append (log : List (FrameId × String × Datum)) (pairs : List (String × Datum)) (f g : FrameId) :
    ((log ++ pairs.map (Prod.mk f)).filter (·.1 == g)).map Prod.snd
      = (log.filter (·.1 == g)).map Prod.snd ++ if f = g then pairs else [] := by
  rw [List.filter_append, List.map_append, List.filter_map]
  refine congrArg _ ?_
  by_cases hfg : f = g
  · rw [if_pos hfg, List.filter_eq_self.2 (by simp [hfg]), List.map_map]
    exact List.map_id' pairs
  · rw [if_neg hfg, List.filter_eq_nil_iff.2 (by simp [hfg])]
    rfl

theorem mem_given : (x, v) ∈ h.given f ↔ (f, x, v) ∈ h.log := by
  simp [given]

theorem gives_iff : h.Gives f x ↔ x ∈ (h.given f).map Prod.fst := by
  simp [Gives, mem_given]

theorem last?_eq : h.last? f x = ((h.given f).filter (·.1 == x)).getLast?.map Prod.snd := by
  rw [last?, given, List.filter_map, List.filter_filter, List.getLast?_map, Option.map_map]
  congr 3
  funext entry
  exact Bool.and_comm _ _

end History

open History

namespace Store.Records

variable {s : Store} {h : History} {f g r : FrameId} {x : String} {pairs : List (String × Datum)}

theorem empty : Store.empty.Records History.empty := by
  refine ⟨fun g => ?_, fun g outer hg => ?_, fun entry hentry => ?_⟩
  · rw [frame?_empty]
    rfl
  · simp [History.LiesIn, History.empty] at hg
  · simp [History.empty] at hentry

variable (hs : s.Records h)

include hs

theorem size : s.size = h.outers.length := by
  have hsize : ∀ g, s.size ≤ g ↔ h.outers.length ≤ g := by
    intro g
    rw [← frame?_eq_none_iff, hs.frames, Option.map_eq_none_iff, List.getElem?_eq_none_iff]
  exact le_antisymm ((hsize _).2 le_rfl) ((hsize _).1 le_rfl)

/-- nothing was bound in a frame that has not been made -/
theorem given_eq_nil (hg : h.outers.length ≤ g) : h.given g = [] := by
  rw [given, List.filter_eq_nil_iff.2, List.map_nil]
  intro entry hentry heq
  rw [beq_iff_eq] at heq
  exact Nat.not_lt.2 hg (heq ▸ hs.logged entry hentry)

/-- a new frame is made, and what it binds is recorded -/
theorem make {outer : Option FrameId} (houter : ∀ g, outer = some g → g < h.outers.length)
    (pairs : List (String × Datum)) : (s.push (Bindings.ofPairs pairs) outer).Records (h.make outer pairs) := by
  have hnone : h.given s.size = [] := hs.given_eq_nil hs.size.ge
  refine ⟨fun g => ?_, fun g outer' hlies => ?_, fun entry hentry => ?_⟩
  · have hgiven : (h.make outer pairs).given g = h.given g ++ if h.outers.length = g then pairs else [] :=
      given_append h.log pairs h.outers.length g
    rw [frame?_push, hgiven, hs.frames, ← hs.size]
    show _ = (h.outers ++ [outer])[g]?.map _
    by_cases hnew : g = s.size
    · subst hnew
      rw [if_pos rfl, if_pos rfl, hnone, hs.size, List.getElem?_concat_length]
      rfl
    · have hold : (h.outers ++ [outer])[g]? = h.outers[g]? := by
        rcases Nat.lt_or_ge g h.outers.length with hlt | hge
        · exact List.getElem?_append_left hlt
        · have hbeyond : h.outers.length + 1 ≤ g := Nat.lt_of_le_of_ne hge (by rw [← hs.size]; exact Ne.symm hnew)
          rw [List.getElem?_eq_none hge, List.getElem?_eq_none]
          simpa using hbeyond
      rw [if_neg hnew, if_neg (Ne.symm hnew), List.append_nil, hold]
  · have hlies' : (h.outers ++ [outer])[g]? = some (some outer') := hlies
    rw [List.getElem?_append] at hlies'
    split at hlies'
    · exact hs.outer_lt g outer' hlies'
    · next hge =>
      obtain ⟨_, heq⟩ := List.getElem?_eq_some_iff.1 hlies'
      rw [List.getElem_singleton] at heq
      exact (houter outer' heq).trans_le (Nat.le_of_not_lt hge)
  · have hlength : (h.make outer pairs).outers.length = h.outers.length + 1 := by simp [History.make]
    rw [hlength]
    rcases List.mem_append.1 hentry with hentry | hentry
    · exact Nat.lt_succ_of_lt (hs.logged entry hentry)
    · obtain ⟨pair, -, rfl⟩ := List.mem_map.1 hentry
      exact Nat.lt_succ_self _

/-- names are bound in a frame, and that is recorded -/
theorem give (hf : f < h.outers.length) (pairs : List (String × Datum)) :
    (s.update f fun bs => bs.assignAll pairs).Records (h.give f pairs) := by
  refine ⟨fun g => ?_, hs.outer_lt, fun entry hentry => ?_⟩
  · have hgiven : (h.give f pairs).given g = h.given g ++ if f = g then pairs else [] := given_append h.log pairs f g
    rw [frame?_update, hgiven, hs.frames]
    show _ = h.outers[g]?.map _
    by_cases hfg : f = g
    · rw [if_pos hfg, if_pos hfg, Option.map_map, Bindings.ofPairs_append]
      rfl
    · rw [if_neg hfg, if_neg hfg, List.append_nil]
  · rcases List.mem_append.1 hentry with hentry | hentry
    · exact hs.logged entry hentry
    · obtain ⟨pair, -, rfl⟩ := List.mem_map.1 hentry
      exact hf

end Store.Records

namespace History

variable {h : History} {w : World}

/-- **One operation**: the store goes on as the history does -/
theorem Admits.records {o : Operation} (ho : h.Admits o) (hw : w.store.Records h) :
    (o.after w).store.Records (h.record o) := by
  cases o with
  | root pairs => exact hw.make (fun g hg => by cases hg) pairs
  | child outer pairs =>
    refine hw.make (fun g hg => ?_) pairs
    cases hg
    exact ho
  | extend captured params args =>
    show (w.store.push (Bindings.ofPairs (Bindings.ofParams params args)) (some captured)).Records _
    rw [Bindings.ofParams_eq_arguments]
    refine hw.make (fun g hg => ?_) _
    cases hg
    exact ho
  | define f x v => exact hw.give ho [(x, v)]
  | update f pairs => exact hw.give ho pairs
  | evaluate room depth f d => exact ho.elim

/-- **A whole run** -/
theorem Possible.records {os : List Operation} (hos : h.Possible os) (hw : w.store.Records h) :
    (Operation.afterAll w os).store.Records (os.foldl record h) := by
  induction os generalizing h w with
  | nil => exact hw
  | cons o os ih => exact ih hos.2 (hos.1.records hw)

end History

/-! ## What is found -/

namespace Store.Records

variable {s : Store} {h : History} {g r : FrameId} {x : String} {v : Datum}

section

variable (hs : s.Records h)

include hs

theorem bindings_eq (g : FrameId) : s.bindings g = Bindings.ofPairs (h.given g) := by
  rw [bindings, hs.frames]
  cases houter : h.outers[g]? with
  | some outer => rfl
  | none =>
    rw [hs.given_eq_nil (List.getElem?_eq_none_iff.1 houter)]
    rfl

theorem value? (g : FrameId) (x : String) : (s.bindings g).value? x = h.last? g x := by
  rw [hs.bindings_eq, Bindings.value?_ofPairs, last?_eq]

theorem binds_iff : s.binds x g = true ↔ h.Gives g x := by
  rw [binds_eq_isSome, Option.isSome_iff_ne_none, Ne, Bindings.value?_eq_none_iff, not_not, hs.bindings_eq,
    Bindings.names_ofPairs, List.mem_eraseDups, gives_iff]

theorem binds_eq_false_iff : s.binds x g = false ↔ ¬ h.Gives g x := by
  rw [← hs.binds_iff, Bool.not_eq_true]

/-- a frame lies in a frame that was made before, or it is a root frame -/
theorem cases_outer (hg : g < s.size) :
    (∃ outer, outer < g ∧ s.LiesIn g outer ∧ h.LiesIn g outer) ∨ s.IsRoot g ∧ ∀ outer, ¬ h.LiesIn g outer := by
  obtain ⟨frame, hframe⟩ := exists_frame hg
  have hrecorded := hframe
  rw [hs.frames, Option.map_eq_some_iff] at hrecorded
  obtain ⟨around, haround, hmade⟩ := hrecorded
  have houter : frame.outer = around := congrArg Frame.outer hmade.symm
  cases hcase : around with
  | some outer =>
    rw [hcase] at haround houter
    exact Or.inl ⟨outer, hs.outer_lt g outer haround, ⟨frame, hframe, houter⟩, haround⟩
  | none =>
    rw [hcase] at haround houter
    refine Or.inr ⟨⟨frame, hframe, houter⟩, fun outer hlies => ?_⟩
    rw [History.LiesIn, haround] at hlies
    cases hlies

/-- the chain of a frame is what lies around it -/
theorem mem_chain_iff (hg : g < s.size) : r ∈ s.chain g ↔ h.Around g r := by
  induction g using Nat.strong_induction_on with
  | _ g ih =>
    rw [History.Around, Relation.ReflTransGen.cases_head_iff]
    rcases hs.cases_outer hg with ⟨outer, hlt, ⟨frame, hframe, houter⟩, hlies⟩ | ⟨⟨frame, hframe, houter⟩, hlies⟩
    · rw [chain_inner hframe houter hlt, List.mem_cons, ih outer hlt (hlt.trans hg), eq_comm]
      refine or_congr_right ⟨fun hr => ⟨outer, hlies, hr⟩, ?_⟩
      rintro ⟨outer', hlies', hr⟩
      rw [History.LiesIn, hlies] at hlies'
      cases hlies'
      exact hr
    · rw [chain_root hframe houter, List.mem_singleton, eq_comm]
      refine ⟨Or.inl, fun hr => hr.resolve_right ?_⟩
      rintro ⟨outer, houter', -⟩
      exact hlies outer houter'

/-- **The nearest frame is found** in which the name was bound -/
theorem find?_iff (hg : g < s.size) : s.find? g x = some r ↔ h.Nearest x g r := by
  induction g using Nat.strong_induction_on with
  | _ g ih =>
    by_cases hgives : h.Gives g x
    · rw [find?_eq_self hg (hs.binds_iff.2 hgives), Option.some_inj]
      constructor
      · rintro rfl
        exact .here hgives
      · intro hr
        cases hr with
        | here => rfl
        | outward hnot => exact absurd hgives hnot
    · have hbinds : s.binds x g = false := hs.binds_eq_false_iff.2 hgives
      rcases hs.cases_outer hg with ⟨outer, hlt, ⟨frame, hframe, houter⟩, hlies⟩ | ⟨hroot, hlies⟩
      · rw [find?_inner hframe houter hlt hbinds, ih outer hlt (hlt.trans hg)]
        refine ⟨fun hr => .outward hgives hlies hr, fun hr => ?_⟩
        cases hr with
        | here hhere => exact absurd hhere hgives
        | outward _ hlies' hr =>
          rw [History.LiesIn, hlies] at hlies'
          cases hlies'
          exact hr
      · rw [find?_eq_none hbinds hroot]
        refine ⟨fun hr => ?_, fun hr => ?_⟩
        · cases hr
        · cases hr with
          | here hhere => exact absurd hhere hgives
          | outward _ hlies' _ => exact absurd hlies' (hlies _)

theorem find?_eq_none_iff (hg : g < s.size) : s.find? g x = none ↔ ∀ r, h.Around g r → ¬ h.Gives r x := by
  rw [find?, List.find?_eq_none]
  refine forall_congr' fun r => ?_
  rw [hs.mem_chain_iff hg, hs.binds_iff]

theorem lookup?_iff (hg : g < s.size) : s.lookup? g x = some v ↔ ∃ r, h.Nearest x g r ∧ h.last? r x = some v := by
  rw [lookup?_eq_bind, Option.bind_eq_some_iff]
  refine exists_congr fun r => ?_
  rw [hs.find?_iff hg, hs.value?]

/-- **A store is as its history says** -/
theorem follows : s.Follows h := by
  refine ⟨hs.size, fun g frame hframe => ?_, fun g frame hframe => ?_, fun g hg x r => hs.find?_iff hg, ?_, ?_, ?_⟩
  · rw [hs.frames, Option.map_eq_some_iff] at hframe
    obtain ⟨outer, houter, rfl⟩ := hframe
    exact houter
  · rw [← Store.bindings_eq hframe, hs.bindings_eq, Bindings.names_ofPairs]
  · rintro g hg x v w rfl
    rw [← hs.lookup?_iff hg, Run.lookup]
    cases w.store.lookup? g x <;> simp
  · rintro g hg x w rfl
    rw [← hs.find?_eq_none_iff hg, Store.find?_eq_none_iff, Run.lookup]
    cases w.store.lookup? g x <;> simp
  · intro g hg x
    rw [← hs.find?_eq_none_iff hg, Option.isSome_eq_false_iff, Option.isNone_iff_eq_none]

end

end Store.Records

/-! ## What one operation changes -/

namespace Operation

/-- the frame in which an operation binds names, if that frame was there before -/
def target : Operation → Option FrameId
  | define f _ _ => some f
  | update f _ => some f
  | _ => none

/-- an operation changes no other frame -/
theorem frame?_after {o : Operation} {w : World} {h : History} (ho : h.Admits o) {g : FrameId} (hg : g < w.store.size)
    (htarget : o.target ≠ some g) : (o.after w).store.frame? g = w.store.frame? g := by
  have hpush : ∀ bindings outer, (w.store.push bindings outer).frame? g = w.store.frame? g := by
    intro bindings outer
    rw [Store.frame?_push, if_neg (Nat.ne_of_lt hg)]
  have hupdate : ∀ f change, o.target = some f → (w.store.update f change).frame? g = w.store.frame? g := by
    intro f change hf
    rw [Store.frame?_update, if_neg]
    rintro rfl
    exact htarget hf
  cases o with
  | root pairs => exact hpush _ _
  | child outer pairs => exact hpush _ _
  | extend captured params args => exact hpush _ _
  | define f x v => exact hupdate f _ rfl
  | update f pairs => exact hupdate f _ rfl
  | evaluate room depth f d => exact ho.elim

end Operation

namespace History

theorem arguments_append (front back : List String) (x : String) (args : List Datum) :
    arguments (front ++ x :: back) args
      = arguments front args ++ (x, args.getD front.length .absent) ::
          (back.zipIdx (front.length + 1)).map fun param => (param.1, args.getD param.2 .absent) := by
  simp [arguments, List.zipIdx_append, List.zipIdx_cons]

theorem map_fst_arguments (params : List String) (args : List Datum) :
    (arguments params args).map Prod.fst = params := by
  rw [← Bindings.ofParams_eq_arguments, Bindings.map_fst_ofParams]

/-- a parameter that is repeated takes the argument at its last place -/
theorem value?_arguments {params front back : List String} {x : String} (h : params = front ++ x :: back)
    (hlast : x ∉ back) (args : List Datum) :
    (Bindings.ofPairs (arguments params args)).value? x = some (args.getD front.length .absent) := by
  have hback : ((back.zipIdx (front.length + 1)).map fun param => (param.1, args.getD param.2 Datum.absent)).filter
      (·.1 == x) = [] := by
    rw [List.filter_eq_nil_iff]
    rintro pair hpair heq
    obtain ⟨param, hparam, rfl⟩ := List.mem_map.1 hpair
    rw [beq_iff_eq] at heq
    exact hlast (heq ▸ List.fst_mem_of_mem_zipIdx hparam)
  rw [Bindings.value?_ofPairs, h, arguments_append, List.filter_append, List.filter_cons, if_pos (beq_self_eq_true x),
    hback, List.getLast?_concat, Option.map_some]

end History

/-! ## Main statement -/

/-- **The store is its history.** After any operations on frames that are possible one after another, the store is as
their history says. What one more operation does changes nothing that is found from a frame outside the one in which it
binds names. And the frame of a call binds the parameters and nothing else, in the order in which they come first, each
to the argument at its last place or, where there is none, to the absent value. -/
theorem store_is_its_history {os : List Operation} (hos : History.empty.Possible os) :
    let w := Operation.afterAll World.empty os
    let h := History.ofRun os
    w.store.Follows h ∧
      (∀ o, h.Admits o → ∀ g, g < w.store.size → (∀ f, o.target = some f → ¬ h.Around g f) → ∀ x,
        (o.after w).store.find? g x = w.store.find? g x ∧ (o.after w).store.lookup? g x = w.store.lookup? g x) ∧
      ∀ captured params args, captured < w.store.size → ∃ frame,
        ((Operation.extend captured params args).after w).store.frame? w.store.size = some frame ∧
          frame.outer = some captured ∧ frame.bindings.names = params.eraseDups ∧
          ∀ front x back, params = front ++ x :: back → x ∉ back →
            frame.bindings.value? x = some (args.getD front.length .absent) := by
  intro w h
  have hrecords : w.store.Records h := hos.records .empty
  refine ⟨hrecords.follows, fun o ho g hg hout x => ?_, fun captured params args hcaptured => ?_⟩
  · have hframes : ∀ r ∈ w.store.chain g, (o.after w).store.frame? r = w.store.frame? r := by
      intro r hr
      refine Operation.frame?_after ho (Store.lt_size_of_mem_chain hr) fun htarget => ?_
      exact hout r htarget ((hrecords.mem_chain_iff hg).1 hr)
    exact ⟨Store.find?_congr hg hframes x, Store.lookup?_congr hg hframes x⟩
  · refine ⟨⟨Bindings.ofPairs (arguments params args), some captured⟩, ?_, rfl, ?_, ?_⟩
    · rw [← Bindings.ofParams_eq_arguments]
      show (w.store.push _ _).frame? w.store.size = _
      rw [Store.frame?_push, if_pos rfl]
    · rw [Bindings.names_ofPairs, map_fst_arguments]
    · exact fun front x back hparams hlast => value?_arguments hparams hlast args

/-- two frames in a root frame, and the frame of a call with too few arguments for a parameter that comes twice; then
names are bound in the frames around -/
theorem later_binding_is_found :
    let os : List Operation :=
      [.root [("a", .text "1")], .child 0 [], .child 0 [("b", .absent)],
        .extend 1 ["x", "y", "x"] [.text "p", .text "q"],
        .define 0 "z" (.text "s"), .update 1 [("a", .text "2"), ("c", .text "t"), ("a", .text "3")]]
    let w := Operation.afterAll World.empty os
    History.empty.Possible os ∧ w.store.Follows (History.ofRun os) ∧
      w.store.find? 3 "a" = some 1 ∧ (History.ofRun os).last? 1 "a" = some (.text "3") ∧
      w.store.find? 2 "a" = some 0 ∧ w.store.find? 2 "z" = some 0 ∧ w.store.find? 2 "c" = none ∧
      (w.store.bindings 3).names = ["x", "y"] ∧ (w.store.bindings 3).value? "x" = some .absent ∧
      (w.store.bindings 1).names = ["a", "c"] := by
  intro os w
  have hos : History.empty.Possible os := by
    simp [os, Possible, Admits, record, History.make, History.give, History.empty]
  refine ⟨hos, (store_is_its_history hos).1, ?_, ?_, ?_, ?_, ?_, ?_, ?_, ?_⟩
  all_goals
    simp only [w, os]
    cbv

end FrameLisp
