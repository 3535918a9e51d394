/-
The chain of a frame.

A frame comes first in its chain (`chain_eq_cons`), and the chain depends on nothing but the frames around the frames in
it (`chain_congr`). A name has the first value that is bound to it along the chain (`lookup?_eq_findSome?`), so what is
found from a frame depends on nothing but the frames in its chain (`find?_congr`, `lookup?_congr`).
-/
import FrameLisp.Proofs.Store.WellFormed
import FrameLisp.Store.Inspect

namespace FrameLisp.Store

variable {s t : Store} {g : FrameId} {x : String}

/-- a chain goes on with the chain of the frame around it, or it ends -/
theorem chain_cases (hg : g < s.size) : (∃ outer, outer < g ∧ s.chain g = g :: s.chain outer) ∨ s.chain g = [g] := by
  obtain ⟨frame, hframe⟩ := exists_frame hg
  cases houter : frame.outer with
  | none => exact Or.inr (chain_root hframe houter)
  | some outer =>
    by_cases hlt : outer < g
    · exact Or.inl ⟨outer, hlt, chain_inner hframe houter hlt⟩
    · refine Or.inr ?_
      rw [chain, hframe]
      simp [houter, hlt]

theorem chain_eq_cons (hg : g < s.size) : ∃ rest, s.chain g = g :: rest := by
  rcases chain_cases hg with ⟨outer, -, hchain⟩ | hchain
  · exact ⟨_, hchain⟩
  · exact ⟨[], hchain⟩

theorem chain_eq_nil (hg : s.size ≤ g) : s.chain g = [] := by
  rw [chain, frame?_eq_none_iff.2 hg]

theorem self_mem_chain (hg : g < s.size) : g ∈ s.chain g := by
  obtain ⟨rest, hrest⟩ := chain_eq_cons hg
  rw [hrest]
  exact List.mem_cons_self

/-- only a frame that is there has a chain -/
theorem lt_size_of_chain {r : FrameId} (h : r ∈ s.chain g) : g < s.size := by
  by_contra hg
  rw [chain_eq_nil (Nat.le_of_not_lt hg)] at h
  cases h

theorem lt_size_of_mem_chain {r : FrameId} (h : r ∈ s.chain g) : r < s.size := by
  induction g using Nat.strong_induction_on with
  | _ g ih =>
    have hg := lt_size_of_chain h
    rcases chain_cases hg with ⟨outer, hlt, hchain⟩ | hchain
    · rw [hchain] at h
      rcases List.mem_cons.1 h with rfl | h
      · exact hg
      · exact ih outer hlt h
    · rw [hchain] at h
      rwa [List.mem_singleton.1 h]

/-- the chain depends on the frames around the frames in it -/
theorem chain_congr (hg : g < s.size)
    (h : ∀ r ∈ s.chain g, (t.frame? r).map Frame.outer = (s.frame? r).map Frame.outer) : t.chain g = s.chain g := by
  induction g using Nat.strong_induction_on with
  | _ g ih =>
    obtain ⟨frame, hframe⟩ := exists_frame hg
    have hself := h g (self_mem_chain hg)
    rw [hframe, Option.map_some, Option.map_eq_some_iff] at hself
    obtain ⟨frame', hframe', houter'⟩ := hself
    cases houter : frame.outer with
    | none => rw [chain_root hframe houter, chain_root hframe' (houter'.trans houter)]
    | some outer =>
      by_cases hlt : outer < g
      · have hchain := chain_inner hframe houter hlt
        rw [hchain, chain_inner hframe' (houter'.trans houter) hlt]
        rw [hchain] at h
        rw [ih outer hlt (hlt.trans hg) fun r hr => h r (List.mem_cons_of_mem _ hr)]
      · rw [chain.eq_1 t, chain.eq_1 s, hframe, hframe']
        simp [houter, houter', hlt]

/-- frames in the chain of a frame in a chain are in that chain -/
theorem mem_chain_trans {q r : FrameId} (hr : r ∈ s.chain g) (hq : q ∈ s.chain r) : q ∈ s.chain g := by
  induction g using Nat.strong_induction_on with
  | _ g ih =>
    have hself : r = g → q ∈ s.chain g := fun hrg => hrg ▸ hq
    rcases chain_cases (lt_size_of_chain hr) with ⟨outer, hlt, hchain⟩ | hchain
    · rw [hchain] at hr
      rcases List.mem_cons.1 hr with hrg | hr
      · exact hself hrg
      · rw [hchain]
        exact List.mem_cons_of_mem _ (ih outer hlt hr)
    · rw [hchain] at hr
      exact hself (List.mem_singleton.1 hr)

/-! ### Chains in later stores -/

/-- a new frame does not change the chains of the others -/
theorem chain_push_of_lt (hg : g < s.size) (bindings : Bindings) (outer : Option FrameId) :
    (s.push bindings outer).chain g = s.chain g := by
  refine chain_congr hg fun r hr => ?_
  rw [frame?_push, if_neg (Nat.ne_of_lt (lt_size_of_mem_chain hr))]

/-- the chain of a new frame goes on with the chain of the frame around it -/
theorem chain_push_self (s : Store) (bindings : Bindings) (outer : FrameId) :
    (s.push bindings (some outer)).chain s.size = s.size :: s.chain outer := by
  have hnew : (s.push bindings (some outer)).frame? s.size = some ⟨bindings, some outer⟩ := by
    rw [frame?_push, if_pos rfl]
  by_cases hlt : outer < s.size
  · rw [chain_inner hnew rfl hlt, chain_push_of_lt hlt]
  · rw [chain, hnew, chain_eq_nil (Nat.le_of_not_lt hlt)]
    simp [hlt]

theorem chain_define (s : Store) (f : FrameId) (y : String) (v : Datum) (g : FrameId) :
    (s.define f y v).chain g = s.chain g := by
  by_cases hg : g < s.size
  · refine chain_congr hg fun r _ => ?_
    rw [frame?_define]
    split
    · rw [Option.map_map]
      rfl
    · rfl
  · rw [chain_eq_nil (Nat.le_of_not_lt hg), chain_eq_nil]
    rw [size_define]
    exact Nat.le_of_not_lt hg

/-! ## What is found along a chain -/

theorem findSome?_congr {α β : Type} {f g : α → Option β} {l : List α} (h : ∀ a ∈ l, f a = g a) :
    l.findSome? f = l.findSome? g := by
  induction l with
  | nil => rfl
  | cons a l ih =>
    rw [List.forall_mem_cons] at h
    rw [List.findSome?_cons, List.findSome?_cons, h.1, ih h.2]

theorem bindings_push (s : Store) (bindings : Bindings) (outer : Option FrameId) (g : FrameId) :
    (s.push bindings outer).bindings g = if g = s.size then bindings else s.bindings g := by
  rw [Store.bindings, frame?_push]
  split
  · rfl
  · rfl

/-- binding a name changes what one frame binds, if that frame is there -/
theorem bindings_define (s : Store) (f : FrameId) (y : String) (v : Datum) (g : FrameId) :
    (s.define f y v).bindings g = if f = g ∧ g < s.size then (s.bindings g).assign y v else s.bindings g := by
  rw [bindings, frame?_define, bindings]
  cases hframe : s.frame? g with
  | none =>
    have hg : ¬ g < s.size := Nat.not_lt.2 (frame?_eq_none_iff.1 hframe)
    simp [hg]
  | some frame =>
    have hg := lt_size hframe
    by_cases hfg : f = g <;> simp [hfg, hg]

/-- binding a name in a frame that is there gives it a new value in that frame -/
theorem value?_define (s : Store) (f : FrameId) (y : String) (v : Datum) (g : FrameId) (x : String) :
    ((s.define f y v).bindings g).value? x
      = if (f = g ∧ x = y) ∧ g < s.size then some v else (s.bindings g).value? x := by
  rw [bindings_define]
  by_cases hthere : f = g ∧ g < s.size
  · simp [hthere, Bindings.value?_assign]
  · rw [if_neg hthere, if_neg fun h => hthere ⟨h.1.1, h.2⟩]

theorem bindings_eq {frame : Frame} (h : s.frame? g = some frame) : s.bindings g = frame.bindings := by
  rw [bindings, h]
  rfl

/-- a frame that is not there binds nothing -/
theorem bindings_eq_nil (hg : s.size ≤ g) : s.bindings g = [] := by
  rw [bindings, frame?_eq_none_iff.2 hg]
  rfl

theorem All.bindings {p : Datum → Prop} (h : s.All p) (g : FrameId) : (s.bindings g).All p := by
  by_cases hg : g < s.size
  · obtain ⟨frame, hframe⟩ := exists_frame hg
    rw [bindings_eq hframe]
    exact h g frame hframe
  · rw [bindings_eq_nil (Nat.le_of_not_lt hg)]
    exact Bindings.all_nil

theorem binds_eq_isSome (g : FrameId) (x : String) : s.binds x g = ((s.bindings g).value? x).isSome := by
  unfold binds bindings
  cases s.frame? g with
  | none => rfl
  | some frame => rfl

theorem lookup?_eq_bind (g : FrameId) (x : String) :
    s.lookup? g x = (s.find? g x).bind fun r => (s.bindings r).value? x := by
  rw [lookup?, Option.bind_assoc]
  refine congrArg (s.find? g x).bind (funext fun r => ?_)
  cases hframe : s.frame? r <;> simp [bindings, hframe]

/-- **The value of a name is the first one along the chain** -/
theorem lookup?_eq_findSome? (g : FrameId) (x : String) :
    s.lookup? g x = (s.chain g).findSome? fun r => (s.bindings r).value? x := by
  rw [lookup?_eq_bind, find?]
  induction s.chain g with
  | nil => rfl
  | cons r rest ih =>
    cases hv : (s.bindings r).value? x with
    | some v =>
      have hbinds : s.binds x r = true := by rw [binds_eq_isSome, hv]; rfl
      rw [List.find?_cons_of_pos hbinds, List.findSome?_cons, hv, Option.bind_some, hv]
    | none =>
      have hbinds : ¬ s.binds x r = true := by rw [binds_eq_isSome, hv]; simp
      rw [List.find?_cons_of_neg hbinds, List.findSome?_cons, hv, ih]

/-- a frame is found for a name just if the name has a value -/
theorem find?_eq_none_iff : s.find? g x = none ↔ s.lookup? g x = none := by
  rw [lookup?_eq_findSome?, find?, List.find?_eq_none, List.findSome?_eq_none_iff]
  refine forall₂_congr fun r _ => ?_
  rw [binds_eq_isSome, Option.not_isSome_iff_eq_none]

theorem binds_congr {r : FrameId} (h : t.frame? r = s.frame? r) (x : String) : t.binds x r = s.binds x r := by
  rw [binds, binds, h]

/-- where a frame does not bind a name, the search goes on from the frame around it -/
theorem find?_inner {frame : Frame} {outer : FrameId} (h : s.frame? g = some frame) (houter : frame.outer = some outer)
    (hlt : outer < g) (hx : s.binds x g = false) : s.find? g x = s.find? outer x := by
  rw [find?, chain_inner h houter hlt, List.find?_cons_of_neg (by simp [hx])]
  rfl

/-- what is found depends on the frames in the chain -/
theorem find?_congr (hg : g < s.size) (h : ∀ r ∈ s.chain g, t.frame? r = s.frame? r) (x : String) :
    t.find? g x = s.find? g x := by
  rw [find?, find?, chain_congr hg fun r hr => congrArg _ (h r hr)]
  refine List.find?_congr fun r hr => ?_
  exact binds_congr (h r hr) x

theorem lookup?_congr (hg : g < s.size) (h : ∀ r ∈ s.chain g, t.frame? r = s.frame? r) (x : String) :
    t.lookup? g x = s.lookup? g x := by
  rw [lookup?, lookup?, find?_congr hg h]
  cases hfind : s.find? g x with
  | none => rfl
  | some r => rw [Option.bind_some, Option.bind_some, h r (List.mem_of_find?_eq_some hfind)]

end FrameLisp.Store
