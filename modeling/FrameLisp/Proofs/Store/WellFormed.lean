/-
Well-formed stores.

A store is well-formed when every frame lies inside a frame that was made before it, and when the closures among the
bound values captured frames that are there (`WellFormed`). New frames and new bindings keep it so
(`WellFormed.push`, `WellFormed.define`). In a well-formed store a name is looked up in a frame first and then in the
frame around it (`lookup?_eq`), and what is found has only closures of that store, as every bound value does
(`All.lookup`).
-/
import FrameLisp.Proofs.Datum.Closures
import FrameLisp.Proofs.Store.Change

namespace FrameLisp

/-- the closures of a datum captured some of the first `n` frames -/
def Datum.Within (n : Nat) (d : Datum) : Prop := d.AllClosures fun _ _ g => g < n

theorem Datum.Within.mono {d : Datum} {m n : Nat} (h : d.Within m) (hle : m ≤ n) : d.Within n :=
  AllClosures.mono h fun _ _ _ hg => hg.trans_le hle

namespace Bindings

/-- all bound values meet `p` -/
def All (p : Datum → Prop) (bs : Bindings) : Prop := ∀ b ∈ bs, p b.2

variable {p q : Datum → Prop} {bs : Bindings}

theorem All.mono (h : bs.All p) (hpq : ∀ d, p d → q d) : bs.All q := fun b hb => hpq _ (h b hb)

theorem all_nil : All p [] := fun _ hb => absurd hb List.not_mem_nil

theorem All.assign (h : bs.All p) (x : String) {v : Datum} (hv : p v) : (bs.assign x v).All p := by
  induction bs with
  | nil => simpa [Bindings.assign, All] using hv
  | cons b bs ih =>
    have htail : All p bs := fun b' hb' => h b' (List.mem_cons_of_mem _ hb')
    intro b' hb'
    simp only [Bindings.assign] at hb'
    split at hb'
    · rcases List.mem_cons.1 hb' with rfl | hb'
      · exact hv
      · exact htail b' hb'
    · rcases List.mem_cons.1 hb' with rfl | hb'
      · exact h b' List.mem_cons_self
      · exact ih htail b' hb'

theorem All.assignAll (h : bs.All p) {pairs : List (String × Datum)} (hpairs : ∀ pair ∈ pairs, p pair.2) :
    (bs.assignAll pairs).All p := by
  induction pairs generalizing bs with
  | nil => exact h
  | cons pair pairs ih =>
    rw [List.forall_mem_cons] at hpairs
    exact ih (h.assign pair.1 hpairs.1) hpairs.2

theorem all_ofPairs {pairs : List (String × Datum)} (h : ∀ pair ∈ pairs, p pair.2) : (ofPairs pairs).All p :=
  all_nil.assignAll h

/-- parameters are bound to arguments or to the absent value -/
theorem all_ofParams (habsent : p .absent) {args : List Datum} (h : ∀ a ∈ args, p a) (params : List String) :
    ∀ pair ∈ ofParams params args, p pair.2 := by
  induction params generalizing args with
  | nil => simp [ofParams]
  | cons param params ih =>
    cases args with
    | nil => exact List.forall_mem_cons.2 ⟨habsent, ih h⟩
    | cons arg args =>
      rw [List.forall_mem_cons] at h
      exact List.forall_mem_cons.2 ⟨h.1, ih h.2⟩

theorem All.value (h : bs.All p) {x : String} {v : Datum} (hv : bs.value? x = some v) : p v := by
  induction bs with
  | nil => simp at hv
  | cons b bs ih =>
    rw [value?_cons] at hv
    split at hv
    · cases hv
      exact h b List.mem_cons_self
    · exact ih (fun b' hb' => h b' (List.mem_cons_of_mem _ hb')) hv

end Bindings

namespace Store

variable {s : Store} {p q : Datum → Prop}

/-- all values that the frames bind meet `p` -/
def All (p : Datum → Prop) (s : Store) : Prop := ∀ g frame, s.frame? g = some frame → frame.bindings.All p

theorem All.mono (h : s.All p) (hpq : ∀ d, p d → q d) : s.All q := fun g frame hg => (h g frame hg).mono hpq

theorem frame?_empty (g : FrameId) : empty.frame? g = none := frame?_eq_none_iff.2 (Nat.zero_le g)

theorem all_empty : empty.All p := by
  intro g frame hg
  rw [frame?_empty] at hg
  cases hg

theorem All.push (h : s.All p) {bindings : Bindings} (hbindings : bindings.All p) (outer : Option FrameId) :
    (s.push bindings outer).All p := by
  intro g frame hg
  rw [frame?_push] at hg
  split at hg
  · cases hg
    exact hbindings
  · exact h g frame hg

theorem All.define (h : s.All p) (f : FrameId) (x : String) {v : Datum} (hv : p v) : (s.define f x v).All p := by
  intro g frame hg
  rw [frame?_define] at hg
  split at hg
  · obtain ⟨old, hold, rfl⟩ := Option.map_eq_some_iff.1 hg
    exact (h g old hold).assign x hv
  · exact h g frame hg

/-- what holds of all bound values holds of what is found -/
theorem All.lookup (h : s.All p) {f : FrameId} {x : String} {v : Datum} (hv : s.lookup? f x = some v) : p v := by
  obtain ⟨frame, hframe, hvalue⟩ := Option.bind_eq_some_iff.1 hv
  obtain ⟨g, -, hg⟩ := Option.bind_eq_some_iff.1 hframe
  exact (h g frame hg).value hvalue

/-! ## Well-formedness -/

/-- frames lie inside older ones, and the closures that are bound captured frames of the store -/
structure WellFormed (s : Store) : Prop where
  outer_lt : ∀ g frame outer, s.frame? g = some frame → frame.outer = some outer → outer < g
  within : s.All (Datum.Within s.size)

theorem wellFormed_empty : empty.WellFormed := by
  refine ⟨fun g frame outer h => ?_, all_empty⟩
  rw [frame?_empty] at h
  cases h

theorem WellFormed.push (h : s.WellFormed) {bindings : Bindings} (hbindings : bindings.All (Datum.Within s.size))
    {outer : Option FrameId} (houter : ∀ g, outer = some g → g < s.size) : (s.push bindings outer).WellFormed := by
  refine ⟨fun g frame around hg hround => ?_, ?_⟩
  · rw [frame?_push] at hg
    split at hg
    · next hnew =>
      cases hg
      rw [hnew]
      exact houter around hround
    · exact h.outer_lt g frame around hg hround
  · rw [size_push]
    exact (h.within.push hbindings outer).mono fun _ hd => hd.mono (Nat.le_succ _)

theorem WellFormed.define (h : s.WellFormed) (f : FrameId) (x : String) {v : Datum} (hv : v.Within s.size) :
    (s.define f x v).WellFormed := by
  refine ⟨fun g frame outer hg houter => ?_, ?_⟩
  · rw [frame?_define] at hg
    split at hg
    · obtain ⟨old, hold, rfl⟩ := Option.map_eq_some_iff.1 hg
      exact h.outer_lt g old outer hold houter
    · exact h.outer_lt g frame outer hg houter
  · rw [size_define]
    exact h.within.define f x hv

/-! ## Looking names up -/

theorem binds_eq {g : FrameId} {frame : Frame} (h : s.frame? g = some frame) (x : String) :
    s.binds x g = frame.bindings.binds x := by
  simp only [Store.binds, h]

/-- a frame that binds a name gives its value -/
theorem lookup?_here {g : FrameId} {frame : Frame} (h : s.frame? g = some frame) {x : String} {v : Datum}
    (hv : frame.bindings.value? x = some v) : s.lookup? g x = some v := by
  have hbinds : s.binds x g = true := by rw [binds_eq h, Bindings.binds, hv]; rfl
  have hchain : ∃ rest, s.chain g = g :: rest := by
    rw [chain, h]
    dsimp only
    split
    · exact ⟨_, rfl⟩
    · split <;> exact ⟨_, rfl⟩
  obtain ⟨rest, hrest⟩ := hchain
  simp [lookup?, find?, hrest, hbinds, h, hv]

/-- **Innermost first**: a name is looked up in the frame at hand and then in the frame around it -/
theorem lookup?_eq {g : FrameId} {frame : Frame} (h : s.frame? g = some frame)
    (hlt : ∀ outer, frame.outer = some outer → outer < g) (x : String) :
    s.lookup? g x = (frame.bindings.value? x).or (frame.outer.bind fun outer => s.lookup? outer x) := by
  cases hv : frame.bindings.value? x with
  | some v => rw [lookup?_here h hv, Option.some_or]
  | none =>
    have hbinds : s.binds x g = false := by rw [binds_eq h, Bindings.binds, hv]; rfl
    rw [Option.none_or]
    cases houter : frame.outer with
    | none => simp [lookup?, find?, chain_root h houter, hbinds]
    | some outer =>
      have hchain := chain_inner h houter (hlt outer houter)
      simp [lookup?, find?, hchain, hbinds]

/-- induction from the outside in: what holds in a frame once it holds in the frame around it holds in all frames -/
theorem WellFormed.induct (hs : s.WellFormed) {motive : FrameId → Prop}
    (step : ∀ g frame, s.frame? g = some frame → (∀ outer, frame.outer = some outer → motive outer) → motive g)
    {g : FrameId} (hg : g < s.size) : motive g := by
  induction g using Nat.strong_induction_on with
  | _ g ih =>
    obtain ⟨frame, hframe⟩ := exists_frame hg
    refine step g frame hframe fun outer houter => ?_
    have hlt := hs.outer_lt g frame outer hframe houter
    exact ih outer hlt (hlt.trans hg)

end Store

end FrameLisp
