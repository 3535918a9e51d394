/-
Stores in which one name stands for another.

A function is called in a store, and so is the function that has the name `y` in place of one of its parameters `x`. The
frame of the call then binds `y` for `x`, and so do the frames inside it, as far as they bind `x` again. Functions that
captured such frames are renamed, and all else is equal: the second store mirrors the first one (`Store.Mirrors`).

What keeps the two names apart is that code which may run inside the call's frame was read from a text without the new
name (`Store.Fits`), and that the call's frame binds the old one. So looking a name up either stays inside, where the
names correspond, or it leaves the call's frame for a name that is neither of the two (`Mirrors.lookup?`). New frames
and new bindings keep the stores in this relation (`Mirrors.push`, `Mirrors.define`).
-/
import FrameLisp.Proofs.Datum.Renaming
import FrameLisp.Proofs.Store.WellFormed

namespace FrameLisp

namespace Store

variable {s t : Store} {c g f outer : FrameId} {x y : String} {d e v : Datum}

/-! ## Frames inside a frame -/

/-- what lies around a frame does not change -/
theorem chain_of_extends (hst : s.Extends t) (hs : s.WellFormed) (hg : g < s.size) : t.chain g = s.chain g := by
  refine hs.induct (motive := fun g => t.chain g = s.chain g) ?_ hg
  intro g frame hframe ih
  obtain ⟨frame', hframe', houter, -⟩ := hst.frames g frame hframe
  cases ho : frame.outer with
  | none => rw [chain_root hframe ho, chain_root hframe' (houter.trans ho)]
  | some outer =>
    have hlt := hs.outer_lt g frame outer hframe ho
    rw [chain_inner hframe ho hlt, chain_inner hframe' (houter.trans ho) hlt, ih outer ho]

theorem mem_chain_inner (hs : s.WellFormed) {frame : Frame} (hframe : s.frame? g = some frame)
    (houter : frame.outer = some outer) : c ∈ s.chain g ↔ c = g ∨ c ∈ s.chain outer := by
  rw [chain_inner hframe houter (hs.outer_lt g frame outer hframe houter), List.mem_cons]

theorem mem_chain_root {frame : Frame} (hframe : s.frame? g = some frame) (houter : frame.outer = none) :
    c ∈ s.chain g ↔ c = g := by
  rw [chain_root hframe houter, List.mem_singleton]

/-- frames that a frame lies in are older -/
theorem le_of_mem_chain (hs : s.WellFormed) (hg : g < s.size) (h : c ∈ s.chain g) : c ≤ g := by
  revert h
  refine hs.induct (motive := fun g => c ∈ s.chain g → c ≤ g) ?_ hg
  intro g frame hframe ih h
  cases houter : frame.outer with
  | none => exact ((mem_chain_root hframe houter).1 h).le
  | some outer =>
    rcases (mem_chain_inner hs hframe houter).1 h with rfl | h
    · exact le_rfl
    · exact (ih outer houter h).trans (hs.outer_lt g frame outer hframe houter).le

/-- a new frame lies in what the frame around it lies in -/
theorem mem_chain_push (hs : s.WellFormed) {bindings : Bindings} (houter : outer < s.size) (hc : c < s.size) :
    c ∈ (s.push bindings (some outer)).chain s.size ↔ c ∈ s.chain outer := by
  have hnew : (s.push bindings (some outer)).frame? s.size = some ⟨bindings, some outer⟩ := by
    rw [frame?_push, if_pos rfl]
  rw [chain_inner hnew rfl houter, List.mem_cons, chain_of_extends (extends_push s bindings (some outer)) hs houter]
  exact or_iff_right (Nat.ne_of_lt hc)

/-! ## Code that may run inside, and values that hold such code -/

/-- code that may run in frame `g`: inside `c` it was read, without the name `y`, and elsewhere it is older than `c` -/
structure Fits (s : Store) (c : FrameId) (y : String) (g : FrameId) (d : Datum) : Prop where
  parsed : c ∈ s.chain g → d.Parsed
  fresh : c ∈ s.chain g → ¬ (Datum.identifier y).Inside d
  older : c ∉ s.chain g → d.Within c

namespace Fits

theorem of_inside (h : s.Fits c y g d) (he : e.Inside d) : s.Fits c y g e := by
  refine ⟨fun hg => (h.parsed hg).of_inside he, fun hg hy => h.fresh hg (hy.trans he), fun hg => ?_⟩
  intro params body frame hin
  exact h.older hg params body frame (hin.trans he)

theorem part (h : s.Fits c y g d) (he : e ∈ d.shape.parts) : s.Fits c y g e :=
  h.of_inside (Datum.inside_of_mem_parts he)

/-- inside `c`, such code does not look the name `y` up, and does not bind it -/
theorem name_ne (h : s.Fits c y g d) (hx : x ∈ d.shape.names) (hg : c ∈ s.chain g) : x ≠ y := by
  rintro rfl
  exact h.fresh hg (Datum.identifier_inside hx)

theorem later (h : s.Fits c y g d) (hst : s.Extends t) (hs : s.WellFormed) (hg : g < s.size) : t.Fits c y g d := by
  have hchain := chain_of_extends hst hs hg
  exact ⟨fun hin => h.parsed (hchain ▸ hin), fun hin => h.fresh (hchain ▸ hin), fun hin => h.older (hchain ▸ hin)⟩

theorem congr {h : FrameId} (hd : s.Fits c y g d) (hchain : c ∈ t.chain h ↔ c ∈ s.chain g) : t.Fits c y h d :=
  ⟨fun hg => hd.parsed (hchain.1 hg), fun hg => hd.fresh (hchain.1 hg), fun hg => hd.older fun hin => hg (hchain.2 hin)⟩

end Fits

end Store

/-- the functions in a value captured frames that are there, and their code may run in those frames -/
def Datum.Tame (s : Store) (c : FrameId) (y : String) (v : Datum) : Prop :=
  v.AllClosures fun params body g => g < s.size ∧ (c ∈ s.chain g → y ∉ params) ∧ ∀ d ∈ body, s.Fits c y g d

namespace Datum

variable {s t : Store} {c : FrameId} {y : String} {v : Datum}

theorem Tame.within (h : v.Tame s c y) : v.Within s.size := AllClosures.mono h fun _ _ _ hg => hg.1

theorem Tame.mono (h : v.Tame s c y) (hst : s.Extends t) (hs : s.WellFormed) : v.Tame t c y := by
  refine AllClosures.mono h fun params body g hg => ?_
  have hchain := Store.chain_of_extends hst hs hg.1
  refine ⟨hg.1.trans_le hst.size_le, ?_, fun d hd => (hg.2.2 d hd).congr (by rw [hchain])⟩
  rw [hchain]
  exact hg.2.1

/-- what is older than `c` has nothing to do with it -/
theorem Within.tame (h : v.Within c) (hs : s.WellFormed) (hc : c ≤ s.size) : v.Tame s c y := by
  induction v using Datum.induct with
  | list items ih => exact allClosures_list.2 fun d hd => ih d hd (allClosures_list.1 h d hd)
  | closure params body g ih =>
    obtain ⟨hg, hbody⟩ := allClosures_closure.1 h
    have hout : c ∉ s.chain g := fun hin => Nat.not_le.2 hg (Store.le_of_mem_chain hs (hg.trans_le hc) hin)
    refine allClosures_closure.2 ⟨⟨hg.trans_le hc, fun hin => absurd hin hout, fun d hd => ?_⟩,
      fun d hd => ih d hd (hbody d hd)⟩
    exact ⟨fun hin => absurd hin hout, fun hin => absurd hin hout, fun _ => hbody d hd⟩
  | _ => exact fun params body frame hin => by cases hin

end Datum

/-- the functions that code makes in a frame where it may run -/
theorem Store.Fits.closure_tame {s : Store} {c g : FrameId} {y : String} {params : List String} {body : List Datum}
    (hs : s.WellFormed) (hc : c ≤ s.size) (hg : g < s.size) (hparams : c ∈ s.chain g → y ∉ params)
    (hbody : ∀ d ∈ body, s.Fits c y g d) : (Datum.closure params body g).Tame s c y := by
  refine Datum.allClosures_closure.2 ⟨⟨hg, hparams, hbody⟩, fun d hd => ?_⟩
  by_cases hin : c ∈ s.chain g
  · exact ((hbody d hd).parsed hin).allClosures
  · exact ((hbody d hd).older hin).tame hs hc

/-! ## Stores that mirror each other -/

namespace Store

/-- `y` in place of `x`, in the code that runs in the frame `c` and in the frames that lie in it -/
def renamed (s : Store) (c : FrameId) (x y : String) : Renaming := ⟨x, y, fun g => decide (c ∈ s.chain g)⟩

/-- `t` is `s` with `y` in place of `x` in the frame `c` and inside it, where `c` binds `x` and only code without the
name `y` may run -/
structure Mirrors (c : FrameId) (x y : String) (s t : Store) : Prop where
  wellFormed : s.WellFormed
  lt : c < s.size
  tame : s.All (Datum.Tame s c y)
  binds : s.binds x c = true
  fresh : ∀ g frame, s.frame? g = some frame → c ∈ s.chain g → y ∉ frame.bindings.names
  frames : ∀ g, t.frame? g = (s.frame? g).map ((s.renamed c x y).frame g)

variable {s t u : Store} {c g f outer : FrameId} {x y : String} {v : Datum}

theorem inside_renamed : (s.renamed c x y).inside g = true ↔ c ∈ s.chain g := by
  simp [renamed]

theorem inside_renamed_false : (s.renamed c x y).inside g = false ↔ c ∉ s.chain g := by
  simp [renamed]

/-! ### How the names correspond as the store grows -/

theorem inside_of_extends (hst : s.Extends u) (hs : s.WellFormed) (hg : g < s.size) :
    (u.renamed c x y).inside g = (s.renamed c x y).inside g := by
  simp only [renamed, chain_of_extends hst hs hg]

theorem nameIn_of_extends (hst : s.Extends u) (hs : s.WellFormed) (hg : g < s.size) :
    (u.renamed c x y).nameIn g = (s.renamed c x y).nameIn g := by
  funext z
  simp only [Renaming.nameIn, inside_of_extends hst hs hg]
  rfl

theorem codeIn_of_extends (hst : s.Extends u) (hs : s.WellFormed) (hg : g < s.size) :
    (u.renamed c x y).codeIn g = (s.renamed c x y).codeIn g := by
  funext d
  simp only [Renaming.codeIn, inside_of_extends hst hs hg]
  rfl

theorem value_of_extends (hst : s.Extends u) (hs : s.WellFormed) (hv : v.Within s.size) :
    (u.renamed c x y).value v = (s.renamed c x y).value v :=
  Renaming.value_congr (r := s.renamed c x y) (Datum.AllClosures.mono hv fun _ _ _ hg => inside_of_extends hst hs hg)

theorem frame_of_extends (hst : s.Extends u) (hs : s.WellFormed) {frame : Frame} (hg : g < s.size)
    (hframe : frame.bindings.All (Datum.Within s.size)) :
    (u.renamed c x y).frame g frame = (s.renamed c x y).frame g frame := by
  have hbindings : frame.bindings.recode ((u.renamed c x y).nameIn g) (u.renamed c x y).value
      = frame.bindings.recode ((s.renamed c x y).nameIn g) (s.renamed c x y).value := by
    refine List.map_congr_left fun b hb => ?_
    rw [nameIn_of_extends hst hs hg, value_of_extends hst hs (hframe b hb)]
  rw [Renaming.frame, Renaming.frame, hbindings]

/-- the new frame inside `outer` is renamed as `outer` is -/
theorem nameIn_push (hs : s.WellFormed) {bindings : Bindings} (houter : outer < s.size) (hc : c < s.size) :
    ((s.push bindings (some outer)).renamed c x y).nameIn s.size = (s.renamed c x y).nameIn outer := by
  funext z
  simp only [Renaming.nameIn, renamed, mem_chain_push hs houter hc]
  rfl

theorem codeIn_push (hs : s.WellFormed) {bindings : Bindings} (houter : outer < s.size) (hc : c < s.size) :
    ((s.push bindings (some outer)).renamed c x y).codeIn s.size = (s.renamed c x y).codeIn outer := by
  funext d
  simp only [Renaming.codeIn, renamed, mem_chain_push hs houter hc]
  rfl

namespace Mirrors

variable (h : s.Mirrors c x y t)

include h

theorem size : t.size = s.size := by
  refine le_antisymm ?_ ?_
  · rw [← frame?_eq_none_iff, h.frames, frame?_eq_none_iff.2 le_rfl, Option.map_none]
  · have hnone : t.frame? t.size = none := frame?_eq_none_iff.2 le_rfl
    rwa [h.frames, Option.map_eq_none_iff, frame?_eq_none_iff] at hnone

/-- frame `g` binds no name twice over when its names are renamed -/
theorem names_apart {frame : Frame} (hframe : s.frame? g = some frame) :
    ∀ z ∈ frame.bindings.names, z ∈ {z | (s.renamed c x y).inside g = true → z ≠ (s.renamed c x y).new} := by
  rintro z hz hg rfl
  exact h.fresh g frame hframe (inside_renamed.1 hg) hz

/-- **Names are looked up alike**, where code without the new name runs -/
theorem lookup? (hg : g < s.size) {z : String} (hz : c ∈ s.chain g → z ≠ y) :
    t.lookup? g ((s.renamed c x y).nameIn g z) = (s.lookup? g z).map (s.renamed c x y).value := by
  have hs := h.wellFormed
  revert hz
  refine hs.induct (motive := fun g => (c ∈ s.chain g → z ≠ y) →
    t.lookup? g ((s.renamed c x y).nameIn g z) = (s.lookup? g z).map (s.renamed c x y).value) ?_ hg
  intro g frame hframe ih hz
  have hframe' : t.frame? g = some ((s.renamed c x y).frame g frame) := by rw [h.frames, hframe, Option.map_some]
  have hlt : ∀ outer, frame.outer = some outer → outer < g := fun outer => hs.outer_lt g frame outer hframe
  have hz' : z ∈ {z | (s.renamed c x y).inside g = true → z ≠ (s.renamed c x y).new} :=
    fun hin => hz (inside_renamed.1 hin)
  have hhere : ((s.renamed c x y).frame g frame).bindings.value? ((s.renamed c x y).nameIn g z)
      = (frame.bindings.value? z).map (s.renamed c x y).value :=
    Bindings.value?_recode (Renaming.injOn_nameIn _ g) (h.names_apart hframe) hz'
  rw [lookup?_eq hframe hlt, lookup?_eq hframe' hlt, hhere]
  cases hv : frame.bindings.value? z with
  | some v => rfl
  | none =>
    rw [Option.map_none, Option.none_or, Option.none_or]
    cases houter : frame.outer with
    | none =>
      have houter' : ((s.renamed c x y).frame g frame).outer = none := houter
      rw [houter']
      rfl
    | some outer =>
      have houter' : ((s.renamed c x y).frame g frame).outer = some outer := houter
      rw [houter', Option.bind_some, Option.bind_some]
      have hchain := mem_chain_inner (c := c) hs hframe houter
      -- the name is the same one further out: the call's frame is left only for a name that it does not bind
      have hname : (s.renamed c x y).nameIn g z = (s.renamed c x y).nameIn outer z := by
        by_cases hout : c ∈ s.chain outer
        · have hin : c ∈ s.chain g := hchain.2 (Or.inr hout)
          rw [Renaming.nameIn_inside (inside_renamed.2 hout), Renaming.nameIn_inside (inside_renamed.2 hin)]
        · rw [Renaming.nameIn_outside (inside_renamed_false.2 hout)]
          by_cases hin : c ∈ s.chain g
          · obtain rfl : c = g := (hchain.1 hin).resolve_right hout
            have hzx : z ≠ x := by
              rintro rfl
              have hbinds := h.binds
              rw [binds_eq hframe, Bindings.binds, hv] at hbinds
              cases hbinds
            rw [Renaming.nameIn_inside (inside_renamed.2 hin)]
            exact if_neg hzx
          · rw [Renaming.nameIn_outside (inside_renamed_false.2 hin)]
      rw [hname]
      exact ih outer houter fun hin => hz (hchain.2 (Or.inr hin))

/-- new frames correspond -/
theorem push {pairs : List (String × Datum)} (hpairs : ∀ pair ∈ pairs, pair.2.Tame s c y) (houter : outer < s.size)
    (hnames : c ∈ s.chain outer → ∀ pair ∈ pairs, pair.1 ≠ y) :
    (s.push (Bindings.ofPairs pairs) (some outer)).Mirrors c x y
      (t.push (Bindings.ofPairs (Bindings.recode ((s.renamed c x y).nameIn outer) (s.renamed c x y).value pairs))
        (some outer)) := by
  have hs := h.wellFormed
  have hwithin : ∀ pair ∈ pairs, pair.2.Within s.size := fun pair hpair => (hpairs pair hpair).within
  have hext := extends_push s (Bindings.ofPairs pairs) (some outer)
  refine ⟨hs.push (Bindings.all_ofPairs hwithin) ?_, ?_, ?_, ?_, ?_, ?_⟩
  · intro g hg
    cases hg
    exact houter
  · rw [size_push]
    exact Nat.lt_succ_of_lt h.lt
  · have hold : s.All (Datum.Tame (s.push (Bindings.ofPairs pairs) (some outer)) c y) :=
      h.tame.mono fun v hv => hv.mono hext hs
    exact hold.push (Bindings.all_ofPairs fun pair hpair => (hpairs pair hpair).mono hext hs) (some outer)
  · have hbinds := h.binds
    unfold Store.binds at hbinds ⊢
    rwa [frame?_push, if_neg (Nat.ne_of_lt h.lt)]
  · intro g frame hframe hg
    rw [frame?_push] at hframe
    by_cases hnew : g = s.size
    · subst hnew
      rw [if_pos rfl] at hframe
      cases hframe
      rw [mem_chain_push hs houter h.lt] at hg
      rw [Bindings.ofPairs, Bindings.mem_names_assignAll]
      rintro (hy | hy)
      · cases hy
      · obtain ⟨pair, hpair, hpairy⟩ := List.mem_map.1 hy
        exact hnames hg pair hpair hpairy
    · rw [if_neg hnew] at hframe
      rw [chain_of_extends hext hs (lt_size hframe)] at hg
      exact h.fresh g frame hframe hg
  · intro g
    rw [frame?_push, frame?_push, h.size, h.frames]
    by_cases hnew : g = s.size
    · subst hnew
      have hvalues : Bindings.recode ((s.renamed c x y).nameIn outer) (s.renamed c x y).value pairs
          = Bindings.recode ((s.renamed c x y).nameIn outer)
            ((s.push (Bindings.ofPairs pairs) (some outer)).renamed c x y).value pairs := by
        refine List.map_congr_left fun pair hpair => ?_
        rw [value_of_extends hext hs (hwithin pair hpair)]
      have hapart : ∀ pair ∈ pairs,
          pair.1 ∈ {z | (s.renamed c x y).inside outer = true → z ≠ (s.renamed c x y).new} :=
        fun pair hpair hin => hnames (inside_renamed.1 hin) pair hpair
      rw [if_pos rfl, if_pos rfl, Option.map_some, Renaming.frame, nameIn_push hs houter h.lt, hvalues,
        Bindings.ofPairs_recode (Renaming.injOn_nameIn _ outer) hapart]
    · rw [if_neg hnew, if_neg hnew]
      cases hframe : s.frame? g with
      | none => rfl
      | some frame =>
        have hbindings : frame.bindings.All (Datum.Within s.size) := (h.tame g frame hframe).mono fun v hv => hv.within
        rw [Option.map_some, Option.map_some, frame_of_extends hext hs (lt_size hframe) hbindings]

/-- names are bound alike -/
theorem define (hf : f < s.size) {z : String} (hz : c ∈ s.chain f → z ≠ y) (hv : v.Tame s c y) :
    (s.define f z v).Mirrors c x y (t.define f ((s.renamed c x y).nameIn f z) ((s.renamed c x y).value v)) := by
  have hs := h.wellFormed
  have hext : s.Extends (s.define f z v) := (changesOnly_define s f z v).extends
  have hold : ∀ g frame, s.frame? g = some frame → frame.bindings.All (Datum.Within s.size) :=
    fun g frame hframe => (h.tame g frame hframe).mono fun v hv => hv.within
  refine ⟨hs.define f z hv.within, ?_, ?_, ?_, ?_, ?_⟩
  · rw [size_define]
    exact h.lt
  · have hvalues : s.All (Datum.Tame (s.define f z v) c y) := h.tame.mono fun v hv => hv.mono hext hs
    exact hvalues.define f z (hv.mono hext hs)
  · obtain ⟨frame, hframe⟩ := exists_frame h.lt
    have hbinds := h.binds
    rw [binds_eq hframe] at hbinds
    by_cases hfc : f = c
    · have hframe' : (s.define f z v).frame? c = some { frame with bindings := frame.bindings.assign z v } := by
        rw [frame?_define, if_pos hfc, hframe, Option.map_some]
      rw [binds_eq hframe', Bindings.binds_assign, hbinds, Bool.or_true]
    · have hframe' : (s.define f z v).frame? c = some frame := by rw [frame?_define, if_neg hfc, hframe]
      rw [binds_eq hframe', hbinds]
  · intro g frame hframe hg
    rw [frame?_define] at hframe
    by_cases hfg : f = g
    · subst hfg
      rw [chain_of_extends hext hs hf] at hg
      rw [if_pos rfl] at hframe
      obtain ⟨old, hold, rfl⟩ := Option.map_eq_some_iff.1 hframe
      rw [Bindings.mem_names_assign]
      rintro (hy | hy)
      · exact hz hg hy.symm
      · exact h.fresh f old hold hg hy
    · rw [if_neg hfg] at hframe
      rw [chain_of_extends hext hs (lt_size hframe)] at hg
      exact h.fresh g frame hframe hg
  · intro g
    rw [frame?_define, frame?_define, h.frames]
    cases hframe : s.frame? g with
    | none => split <;> rfl
    | some frame =>
      by_cases hfg : f = g
      · subst hfg
        have hz' : z ∈ {z | (s.renamed c x y).inside f = true → z ≠ (s.renamed c x y).new} :=
          fun hin => hz (inside_renamed.1 hin)
        have hassigned : ({ frame with bindings := frame.bindings.assign z v } : Frame).bindings.All
            (Datum.Within s.size) := (hold f frame hframe).assign z hv.within
        rw [if_pos rfl, if_pos rfl, Option.map_some, Option.map_some, Option.map_some, Option.map_some,
          frame_of_extends hext hs hf hassigned]
        simp only [Renaming.frame, Bindings.assign_recode (Renaming.injOn_nameIn _ f) (h.names_apart hframe) hz']
      · rw [if_neg hfg, if_neg hfg, Option.map_some, Option.map_some,
          frame_of_extends hext hs (lt_size hframe) (hold g frame hframe)]

end Mirrors

/-! ### Where a call begins -/

/-- what was there before the frame `s.size` is not renamed -/
theorem value_older (hu : u.WellFormed) (hle : s.size ≤ u.size) (hv : v.Within s.size) :
    (u.renamed s.size x y).value v = v := by
  refine Renaming.value_eq_self (Datum.AllClosures.mono hv fun _ _ g hg => ?_)
  rw [inside_renamed_false]
  exact fun hin => Nat.not_le.2 hg (le_of_mem_chain hu (hg.trans_le hle) hin)

theorem frame_older (hu : u.WellFormed) (hle : s.size ≤ u.size) {frame : Frame} (hg : g < s.size)
    (hframe : frame.bindings.All (Datum.Within s.size)) : (u.renamed s.size x y).frame g frame = frame := by
  have hout : s.size ∉ u.chain g := fun hin => Nat.not_le.2 hg (le_of_mem_chain hu (hg.trans_le hle) hin)
  have hbindings : frame.bindings.recode id (u.renamed s.size x y).value = frame.bindings := by
    refine (List.map_congr_left fun b hb => ?_).trans (List.map_id _)
    rw [value_older hu hle (hframe b hb)]
    rfl
  rw [Renaming.frame, Renaming.nameIn_outside (inside_renamed_false.2 hout), hbindings]

/-- the frame of a call, and the one of a call with the new name in place of a parameter -/
theorem WellFormed.mirrors_call (hs : s.WellFormed) (hf : f < s.size) {params : List String} (hx : x ∈ params)
    (hy : y ∉ params) {args : List Datum} (hargs : ∀ a ∈ args, a.Within s.size) :
    (s.push (Bindings.ofPairs (Bindings.ofParams params args)) (some f)).Mirrors s.size x y
      (s.push (Bindings.ofPairs (Bindings.ofParams (params.map (replacing x y)) args)) (some f)) := by
  have hpairs := Bindings.all_ofParams Datum.allClosures_absent hargs params
  have hwf : (s.push (Bindings.ofPairs (Bindings.ofParams params args)) (some f)).WellFormed := by
    refine hs.push (Bindings.all_ofPairs hpairs) fun g hg => ?_
    cases hg
    exact hf
  have hle : s.size ≤ (s.push (Bindings.ofPairs (Bindings.ofParams params args)) (some f)).size := by simp
  have hnew : (s.push (Bindings.ofPairs (Bindings.ofParams params args)) (some f)).frame? s.size
      = some ⟨Bindings.ofPairs (Bindings.ofParams params args), some f⟩ := by rw [frame?_push, if_pos rfl]
  have hself : s.size ∈ (s.push (Bindings.ofPairs (Bindings.ofParams params args)) (some f)).chain s.size := by
    rw [mem_chain_inner hwf hnew rfl]
    exact Or.inl rfl
  refine ⟨hwf, by simp, ?_, ?_, ?_, ?_⟩
  · have hall := hs.within.push (Bindings.all_ofPairs hpairs) (some f)
    exact hall.mono fun v hv => Datum.Within.tame hv hwf hle
  · rw [binds_eq hnew, Bindings.binds, Option.isSome_iff_ne_none, Ne, Bindings.value?_eq_none_iff, not_not]
    exact Bindings.mem_names_ofParams.2 hx
  · intro g frame hframe hg
    have hge := le_of_mem_chain hwf (lt_size hframe) hg
    have hlt : g < s.size + 1 := by simpa using lt_size hframe
    obtain rfl : g = s.size := le_antisymm (Nat.le_of_lt_succ hlt) hge
    rw [hnew] at hframe
    cases hframe
    rwa [Bindings.mem_names_ofParams]
  · intro g
    rw [frame?_push, frame?_push]
    by_cases hg : g = s.size
    · subst hg
      have hargs' : args.map (Store.renamed _ s.size x y).value = args.map id :=
        List.map_congr_left fun a ha => value_older hwf hle (hargs a ha)
      have hnames : ∀ pair ∈ Bindings.ofParams params args, pair.1 ≠ y := by
        rintro pair hpair rfl
        refine hy ?_
        rw [← Bindings.map_fst_ofParams params args]
        exact List.mem_map_of_mem hpair
      rw [if_pos rfl, if_pos rfl, Option.map_some, Renaming.frame,
        Bindings.ofPairs_recode (Renaming.injOn_nameIn _ s.size) fun pair hpair _ => hnames pair hpair,
        ← Bindings.ofParams_recode rfl, Renaming.nameIn_inside (inside_renamed.2 hself), hargs', List.map_id]
      rfl
    · rw [if_neg hg, if_neg hg]
      cases hframe : s.frame? g with
      | none => rfl
      | some frame =>
        rw [Option.map_some, frame_older hwf hle (lt_size hframe) (hs.within g frame hframe)]

end Store

end FrameLisp
