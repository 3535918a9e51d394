/-
How a store may change.

Frames are made and never taken away, they stay inside the frames that they were made in, and names that are bound
stay bound (`Extends`). A change of this kind is local to a frame when it keeps all other frames as they were and
binds only certain names in that one (`ChangesOnly`). What happens in a new frame is local to every old frame and
binds no name there (`ChangesOnly.of_push`).
-/
import FrameLisp.Store.World
import Mathlib.Tactic

namespace FrameLisp

namespace Bindings

theorem value?_eq_none_iff {bs : Bindings} {x : String} : bs.value? x = none ↔ x ∉ bs.names := by
  induction bs with
  | nil => simp [names]
  | cons b bs ih =>
    have hnames : names (b :: bs) = b.1 :: names bs := rfl
    rw [value?_cons, hnames, List.mem_cons]
    by_cases h : b.1 = x
    · simp [h]
    · simp [h, ih, Ne.symm h]

theorem names_prefix_assign (bs : Bindings) (x : String) (v : Datum) : bs.names <+: (bs.assign x v).names := by
  rw [names_assign]
  split
  · exact List.prefix_refl _
  · exact List.prefix_append _ _

theorem mem_names_assign {bs : Bindings} {x y : String} {v : Datum} :
    y ∈ (bs.assign x v).names ↔ y = x ∨ y ∈ bs.names := by
  rw [names_assign]
  split
  · next hx =>
    refine ⟨Or.inr, ?_⟩
    rintro (rfl | hy)
    · exact hx
    · exact hy
  · rw [List.mem_append, List.mem_singleton, or_comm]

theorem mem_names_assignAll {bs : Bindings} {pairs : List (String × Datum)} {x : String} :
    x ∈ (bs.assignAll pairs).names ↔ x ∈ bs.names ∨ x ∈ pairs.map Prod.fst := by
  induction pairs generalizing bs with
  | nil => simp [assignAll]
  | cons pair pairs ih =>
    have hstep : bs.assignAll (pair :: pairs) = (bs.assign pair.1 pair.2).assignAll pairs := rfl
    rw [hstep, ih, mem_names_assign, List.map_cons, List.mem_cons]
    tauto

theorem map_fst_ofParams (params : List String) (args : List Datum) :
    (ofParams params args).map Prod.fst = params := by
  induction params generalizing args with
  | nil => rfl
  | cons param params ih => cases args <;> simp [ofParams, ih]

/-- a call binds the parameters and nothing else -/
theorem mem_names_ofParams {params : List String} {args : List Datum} {x : String} :
    x ∈ (ofPairs (ofParams params args)).names ↔ x ∈ params := by
  rw [ofPairs, mem_names_assignAll, map_fst_ofParams]
  simp [names]

end Bindings

namespace Store

/-! ## Extension -/

/-- `t` has the frames of `s`, each inside the same one and with at least the same names, and perhaps others -/
structure Extends (s t : Store) : Prop where
  size_le : s.size ≤ t.size
  frames : ∀ g frame, s.frame? g = some frame →
    ∃ frame', t.frame? g = some frame' ∧ frame'.outer = frame.outer ∧ frame.bindings.names <+: frame'.bindings.names

/-! ## Change of one frame -/

/-- `t` is `s` with new frames, and with nothing changed in the frames of `s` but values of `names` in `f` -/
structure ChangesOnly (f : FrameId) (names : String → Prop) (s t : Store) : Prop where
  size_le : s.size ≤ t.size
  elsewhere : ∀ g, g < s.size → g ≠ f → t.frame? g = s.frame? g
  here : ∀ frame, s.frame? f = some frame →
    ∃ frame', t.frame? f = some frame' ∧ frame'.outer = frame.outer ∧ frame.bindings.names <+: frame'.bindings.names ∧
      ∀ x, ¬ names x → frame'.bindings.value? x = frame.bindings.value? x

variable {s t u : Store} {f : FrameId} {names : String → Prop}

theorem lt_size {g : FrameId} {frame : Frame} (h : s.frame? g = some frame) : g < s.size := by
  by_contra hlt
  rw [frame?_eq_none_iff.2 (Nat.le_of_not_lt hlt)] at h
  cases h

theorem exists_frame {g : FrameId} (h : g < s.size) : ∃ frame, s.frame? g = some frame := by
  cases hg : s.frame? g with
  | some frame => exact ⟨frame, rfl⟩
  | none => exact absurd h (Nat.not_lt.2 (frame?_eq_none_iff.1 hg))

theorem Extends.refl (s : Store) : Extends s s := ⟨le_rfl, fun _ frame h => ⟨frame, h, rfl, List.prefix_refl _⟩⟩

theorem Extends.trans (h₁ : Extends s t) (h₂ : Extends t u) : Extends s u := by
  refine ⟨h₁.size_le.trans h₂.size_le, fun g frame hg => ?_⟩
  obtain ⟨frame', hg', houter, hnames⟩ := h₁.frames g frame hg
  obtain ⟨frame'', hg'', houter', hnames'⟩ := h₂.frames g frame' hg'
  exact ⟨frame'', hg'', houter'.trans houter, hnames.trans hnames'⟩

theorem extends_push (s : Store) (bindings : Bindings) (outer : Option FrameId) :
    Extends s (s.push bindings outer) := by
  refine ⟨by simp, fun g frame hg => ⟨frame, ?_, rfl, List.prefix_refl _⟩⟩
  rw [frame?_push, if_neg (Nat.ne_of_lt (lt_size hg))]
  exact hg

/-- stores with the same frames are the same -/
theorem ext_frame? (h : ∀ g, s.frame? g = t.frame? g) : s = t := by
  obtain ⟨frames⟩ := s
  obtain ⟨frames'⟩ := t
  exact congrArg Store.mk (Array.ext_getElem? h)

theorem ChangesOnly.refl (s : Store) : ChangesOnly f names s s :=
  ⟨le_rfl, fun _ _ _ => rfl, fun frame h => ⟨frame, h, rfl, List.prefix_refl _, fun _ _ => rfl⟩⟩

theorem ChangesOnly.trans (h₁ : ChangesOnly f names s t) (h₂ : ChangesOnly f names t u) : ChangesOnly f names s u := by
  refine ⟨h₁.size_le.trans h₂.size_le, fun g hg hne => ?_, fun frame hf => ?_⟩
  · exact (h₂.elsewhere g (hg.trans_le h₁.size_le) hne).trans (h₁.elsewhere g hg hne)
  · obtain ⟨frame', hf', houter, hnames, hvalues⟩ := h₁.here frame hf
    obtain ⟨frame'', hf'', houter', hnames', hvalues'⟩ := h₂.here frame' hf'
    exact ⟨frame'', hf'', houter'.trans houter, hnames.trans hnames',
      fun x hx => (hvalues' x hx).trans (hvalues x hx)⟩

theorem ChangesOnly.mono {names' : String → Prop} (h : ChangesOnly f names s t) (hsub : ∀ x, names x → names' x) :
    ChangesOnly f names' s t := by
  refine ⟨h.size_le, h.elsewhere, fun frame hf => ?_⟩
  obtain ⟨frame', hf', houter, hnames, hvalues⟩ := h.here frame hf
  exact ⟨frame', hf', houter, hnames, fun x hx => hvalues x fun hin => hx (hsub x hin)⟩

theorem ChangesOnly.extends (h : ChangesOnly f names s t) : Extends s t := by
  refine ⟨h.size_le, fun g frame hg => ?_⟩
  by_cases hgf : g = f
  · subst hgf
    obtain ⟨frame', hf', houter, hnames, -⟩ := h.here frame hg
    exact ⟨frame', hf', houter, hnames⟩
  · exact ⟨frame, (h.elsewhere g (lt_size hg) hgf).trans hg, rfl, List.prefix_refl _⟩

/-- binding a name changes the frame at hand and that name -/
theorem changesOnly_define (s : Store) (f : FrameId) (x : String) (v : Datum) :
    ChangesOnly f (· = x) s (s.define f x v) := by
  refine ⟨by simp, fun g _ hne => ?_, fun frame hf => ?_⟩
  · rw [frame?_define, if_neg (Ne.symm hne)]
  · refine ⟨{ frame with bindings := frame.bindings.assign x v }, ?_, rfl, ?_, fun y hy => ?_⟩
    · rw [frame?_define, if_pos rfl, hf]
      rfl
    · exact Bindings.names_prefix_assign ..
    · rw [Bindings.value?_assign, if_neg hy]

/-- what happens in a new frame leaves all old frames alone -/
theorem ChangesOnly.of_push {bindings : Bindings} {outer : Option FrameId}
    (h : ChangesOnly s.size names (s.push bindings outer) t) (f : FrameId) (names' : String → Prop) :
    ChangesOnly f names' s t := by
  have hold : ∀ g, g < s.size → t.frame? g = s.frame? g := by
    intro g hg
    rw [h.elsewhere g (by simp; omega) (Nat.ne_of_lt hg), frame?_push, if_neg (Nat.ne_of_lt hg)]
  refine ⟨Nat.le_of_succ_le (by simpa using h.size_le), fun g hg _ => hold g hg, fun frame hf => ?_⟩
  exact ⟨frame, (hold f (lt_size hf)).trans hf, rfl, List.prefix_refl _, fun _ _ => rfl⟩

end Store

end FrameLisp
