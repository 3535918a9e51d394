/-
Frames that are spread over several frames.

One store may bind in a single frame what another store binds in several, one around the other. A spreading says which
frame of the other store code sees in place of a frame, and over which frames its bindings are spread (`Spreading`). The
stores correspond when, along the chain of a live frame, the other store goes through the frames over which each frame
of that chain is spread, and finds the same values in them, up to the numbers of the frames (`Store.Spread`). Then a
name has the same value (`Spread.lookup?`).

New frames and new bindings keep stores in this correspondence (`Spread.push`, `Spread.define`), as long as names are
bound in frames that go first in their place and stand alone in it (`Spreading.Alone`). A frame that is sealed can be
spread over one more frame: the one store binds a name in it, and the other binds it in a new frame (`Spread.shift`).
-/
import FrameLisp.Proofs.Datum.Renumbering
import FrameLisp.Proofs.Store.Chain
import FrameLisp.Proofs.Store.Sealed

namespace FrameLisp

theorem Datum.renumber_congr {ρ σ : FrameId → FrameId} {d : Datum} (h : d.AllClosures fun _ _ g => ρ g = σ g) :
    d.renumber ρ = d.renumber σ := by
  induction d using Datum.induct with
  | list items ih =>
    rw [allClosures_list] at h
    rw [renumber_list, renumber_list, List.map_congr_left fun d hd => ih d hd (h d hd)]
  | closure params body frame ih =>
    obtain ⟨hframe, hbody⟩ := allClosures_closure.1 h
    rw [renumber_closure, renumber_closure, hframe, List.map_congr_left fun d hd => ih d hd (hbody d hd)]
  | _ => rfl

/-- how the frames of one store are spread over the frames of another -/
structure Spreading where
  /-- the frame that code sees in place of a frame -/
  number : FrameId → FrameId
  /-- the frames over which a frame is spread, nearest first -/
  level : FrameId → List FrameId
  /-- the frames that code may still get at -/
  live : Set FrameId

namespace Spreading

/-- the frame has its number first, and no other live frame is spread over that one -/
structure Alone (p : Spreading) (g : FrameId) : Prop where
  first : ∃ rest, p.level g = p.number g :: rest
  apart : ∀ h ∈ p.live, h ≠ g → p.number g ∉ p.level h

/-- the functions in a value captured live frames -/
def Holds (p : Spreading) (v : Datum) : Prop := v.AllClosures fun _ _ g => g ∈ p.live

end Spreading

/-- `t` binds in the frames of each level what `s` binds in one frame -/
structure Store.Spread (p : Spreading) (s t : Store) : Prop where
  /-- new frames get numbers in step, and are spread over themselves -/
  next : ∀ i, p.number (s.size + i) = t.size + i
  fresh : ∀ g, s.size ≤ g → g ∈ p.live ∧ p.level g = [p.number g] ∧ p.Alone g
  lt : ∀ g ∈ p.live, g < s.size → p.number g < t.size
  around : ∀ g ∈ p.live, ∀ r ∈ s.chain g, r ∈ p.live
  chain : ∀ g ∈ p.live, t.chain (p.number g) = (s.chain g).flatMap p.level
  values : ∀ g ∈ p.live, ∀ x, (p.level g).findSome? (fun r => (t.bindings r).value? x)
    = ((s.bindings g).value? x).map (Datum.renumber p.number)
  held : ∀ g ∈ p.live, (s.bindings g).All p.Holds

namespace Store.Spread

variable {p : Spreading} {s t : Store} {f g : FrameId} {x : String} {v : Datum}

section

variable (h : s.Spread p t)

include h

theorem size : p.number s.size = t.size := h.next 0

/-- the frames of a level are there -/
theorem level_lt (hg : g ∈ p.live) (hlt : g < s.size) {r : FrameId} (hr : r ∈ p.level g) : r < t.size := by
  obtain ⟨rest, hrest⟩ := chain_eq_cons hlt
  refine lt_size_of_mem_chain (s := t) (g := p.number g) ?_
  rw [h.chain g hg, hrest, List.flatMap_cons]
  exact List.mem_append_left _ hr

/-- **A name has the same value**, up to the numbers of frames -/
theorem lookup? (hg : g ∈ p.live) (x : String) :
    t.lookup? (p.number g) x = (s.lookup? g x).map (Datum.renumber p.number) := by
  rw [lookup?_eq_findSome?, lookup?_eq_findSome?, h.chain g hg]
  have hlive := h.around g hg
  generalize s.chain g = rs at hlive
  induction rs with
  | nil => rfl
  | cons r rest ih =>
    rw [List.forall_mem_cons] at hlive
    rw [List.flatMap_cons, List.findSome?_append, h.values r hlive.1, List.findSome?_cons]
    cases (s.bindings r).value? x with
    | some v => rfl
    | none => exact ih hlive.2

/-- the functions that code finds captured live frames -/
theorem lookup?_holds (hg : g ∈ p.live) (hv : s.lookup? g x = some v) : p.Holds v := by
  rw [lookup?_eq_findSome?] at hv
  obtain ⟨r, hr, hvalue⟩ := List.exists_of_findSome?_eq_some hv
  exact (h.held r (h.around g hg r hr)).value hvalue

/-- new frames correspond -/
theorem push (hf : f ∈ p.live) {bindings : Bindings} (hbindings : bindings.All p.Holds) :
    (s.push bindings (some f)).Spread p (t.push (bindings.renumber p.number) (some (p.number f))) := by
  obtain ⟨hlive, hlevel, halone⟩ := h.fresh s.size le_rfl
  -- a frame is there already, or it is the new one, or it is to come
  have hcases : ∀ g, g < s.size ∨ g = s.size ∨ (s.push bindings (some f)).size ≤ g := by
    intro g
    rw [size_push]
    rcases Nat.lt_trichotomy g s.size with hlt | heq | hgt
    · exact Or.inl hlt
    · exact Or.inr (Or.inl heq)
    · exact Or.inr (Or.inr hgt)
  have hlater : ∀ g, (s.push bindings (some f)).size ≤ g →
      (t.push (bindings.renumber p.number) (some (p.number f))).size ≤ p.number g := by
    intro g hg
    rw [size_push] at hg ⊢
    obtain ⟨i, rfl⟩ := Nat.exists_eq_add_of_le hg
    rw [Nat.add_assoc, h.next]
    omega
  refine ⟨fun i => ?_, fun g hg => ?_, fun g hg hlt => ?_, fun g hg r hr => ?_, fun g hg => ?_, fun g hg x => ?_,
    fun g hg => ?_⟩
  · rw [size_push, size_push, Nat.add_assoc, Nat.add_assoc]
    exact h.next (1 + i)
  · rw [size_push] at hg
    exact h.fresh g (Nat.le_of_succ_le hg)
  · rw [size_push] at hlt ⊢
    rcases Nat.lt_succ_iff_lt_or_eq.1 hlt with hlt | rfl
    · exact Nat.lt_succ_of_lt (h.lt g hg hlt)
    · rw [h.size]
      exact Nat.lt_succ_self _
  · rcases hcases g with hlt | rfl | hge
    · rw [chain_push_of_lt hlt] at hr
      exact h.around g hg r hr
    · rw [chain_push_self] at hr
      rcases List.mem_cons.1 hr with rfl | hr
      · exact hlive
      · exact h.around f hf r hr
    · rw [chain_eq_nil hge] at hr
      cases hr
  · rcases hcases g with hlt | rfl | hge
    · rw [chain_push_of_lt hlt, chain_push_of_lt (h.lt g hg hlt), h.chain g hg]
    · rw [chain_push_self, h.size, chain_push_self, h.chain f hf, List.flatMap_cons, hlevel, h.size]
      rfl
    · rw [chain_eq_nil hge, chain_eq_nil (hlater g hge)]
      rfl
  · by_cases hnew : g = s.size
    · subst hnew
      rw [hlevel, h.size, List.findSome?_singleton, bindings_push, bindings_push, if_pos rfl, if_pos rfl,
        Bindings.value?_renumber]
    · have hapart : ∀ r ∈ p.level g, r ≠ t.size := by
        rintro r hr rfl
        refine halone.apart g hg hnew ?_
        rw [h.size]
        exact hr
      rw [bindings_push, if_neg hnew, ← h.values g hg x]
      refine findSome?_congr fun r hr => ?_
      rw [bindings_push, if_neg (hapart r hr)]
  · rw [bindings_push]
    split
    · exact hbindings
    · exact h.held g hg

/-- names are bound alike -/
theorem define (halone : p.Alone f) (x : String) (hv : p.Holds v) :
    (s.define f x v).Spread p (t.define (p.number f) x (v.renumber p.number)) := by
  refine ⟨fun i => ?_, fun g hg => ?_, fun g hg hlt => ?_, fun g hg r hr => ?_, fun g hg => ?_, fun g hg y => ?_,
    fun g hg => ?_⟩
  · rw [size_define, size_define]
    exact h.next i
  · rw [size_define] at hg
    exact h.fresh g hg
  · rw [size_define] at hlt ⊢
    exact h.lt g hg hlt
  · rw [chain_define] at hr
    exact h.around g hg r hr
  · rw [chain_define, chain_define]
    exact h.chain g hg
  · by_cases hgf : g = f
    · subst hgf
      obtain ⟨rest, hrest⟩ := halone.first
      have hsize : p.number g < t.size ↔ g < s.size := by
        refine ⟨fun hlt => Nat.lt_of_not_le fun hle => ?_, h.lt g hg⟩
        obtain ⟨i, rfl⟩ := Nat.exists_eq_add_of_le hle
        rw [h.next] at hlt
        exact Nat.not_lt.2 (Nat.le_add_right _ _) hlt
      by_cases hbound : y = x ∧ g < s.size
      · rw [value?_define, if_pos ⟨⟨rfl, hbound.1⟩, hbound.2⟩, hrest, List.findSome?_cons, value?_define,
          if_pos ⟨⟨rfl, hbound.1⟩, hsize.2 hbound.2⟩]
        rfl
      · rw [value?_define, if_neg fun hcond => hbound ⟨hcond.1.2, hcond.2⟩, ← h.values g hg y]
        refine findSome?_congr fun r hr => ?_
        rw [value?_define, if_neg]
        rintro ⟨⟨rfl, hyx⟩, hlt⟩
        exact hbound ⟨hyx, hsize.1 hlt⟩
    · rw [value?_define, if_neg fun hcond => hgf hcond.1.1.symm, ← h.values g hg y]
      refine findSome?_congr fun r hr => ?_
      rw [value?_define, if_neg]
      rintro ⟨⟨rfl, -⟩, -⟩
      exact halone.apart g hg hgf hr
  · rw [bindings_define]
    split
    · exact (h.held g hg).assign x hv
    · exact h.held g hg

end

end Store.Spread

/-! ## Where a correspondence begins -/

namespace Spreading

/-- every frame corresponds to itself -/
def same : Spreading := ⟨id, fun g => [g], Set.univ⟩

theorem alone_same (g : FrameId) : same.Alone g := by
  refine ⟨⟨[], rfl⟩, fun h _ hne hin => ?_⟩
  exact hne (List.mem_singleton.1 hin).symm

/-- the frame with the number `n`, which binds nothing, is spread over no frame at all; code sees `f` in its place -/
def without (n f : FrameId) : Spreading where
  number g := if g < n then g else if g = n then f else g - 1
  level g := if g < n then [g] else if g = n then [] else [g - 1]
  live := Set.univ

end Spreading

theorem Store.spread_same (s : Store) : s.Spread .same s := by
  refine ⟨fun _ => rfl, fun g _ => ⟨trivial, rfl, Spreading.alone_same g⟩, fun _ _ => id, fun _ _ _ _ => trivial,
    fun g _ => ?_, fun g _ x => ?_, fun g _ b _ _ _ _ _ => trivial⟩
  · exact (List.flatMap_singleton' (s.chain g)).symm
  · have hid : Datum.renumber Spreading.same.number = id := funext Datum.renumber_id
    rw [hid, Option.map_id, id]
    exact List.findSome?_singleton ..

namespace Spreading

variable {n f g : FrameId}

theorem without_of_lt (h : g < n) : (without n f).number g = g ∧ (without n f).level g = [g] := by
  simp [without, h]

theorem without_self : (without n f).number n = f ∧ (without n f).level n = [] := by
  simp [without]

theorem without_of_gt (h : n < g) : (without n f).number g = g - 1 ∧ (without n f).level g = [g - 1] := by
  have hlt : ¬ g < n := Nat.not_lt.2 h.le
  have hne : g ≠ n := Nat.ne_of_gt h
  simp [without, hlt, hne]

end Spreading

open Spreading

/-- a new frame that binds nothing makes no difference -/
theorem Store.WellFormed.spread_without {s : Store} (hs : s.WellFormed) {f : FrameId} (hf : f < s.size) :
    (s.push [] (some f)).Spread (without s.size f) s := by
  have hold : ∀ g, g < s.size → (s.chain g).flatMap (without s.size f).level = s.chain g := by
    intro g hg
    rw [List.flatMap_congr fun r hr => (without_of_lt (lt_size_of_mem_chain hr)).2]
    exact List.flatMap_singleton' _
  have hvalues : ∀ bs : Bindings, bs.All (Datum.Within s.size) → ∀ x,
      (bs.value? x).map (Datum.renumber (without s.size f).number) = bs.value? x := by
    intro bs hbs x
    cases hv : bs.value? x with
    | none => rfl
    | some v =>
      rw [Option.map_some, Datum.renumber_eq_self]
      exact Datum.AllClosures.mono (hbs.value hv) fun _ _ g hg => (without_of_lt hg).1
  refine ⟨fun i => ?_, fun g hg => ?_, fun g _ hlt => ?_, fun _ _ _ _ => trivial, fun g _ => ?_, fun g _ x => ?_,
    fun g _ b _ _ _ _ _ => trivial⟩
  · have hgt : s.size < s.size + 1 + i := by omega
    have hpred : s.size + 1 + i - 1 = s.size + i := by omega
    rw [size_push, (without_of_gt hgt).1]
    exact hpred
  · rw [size_push] at hg
    have hgt := without_of_gt (f := f) (Nat.lt_of_succ_le hg)
    refine ⟨trivial, by rw [hgt.1, hgt.2], ⟨[], by rw [hgt.1, hgt.2]⟩, fun h _ hne hin => ?_⟩
    rw [hgt.1] at hin
    rcases Nat.lt_trichotomy h s.size with hlt | rfl | hgt'
    · rw [(without_of_lt hlt).2, List.mem_singleton] at hin
      exact Nat.not_le.2 hlt (hin ▸ Nat.le_sub_one_of_lt hg)
    · rw [without_self.2] at hin
      cases hin
    · rw [(without_of_gt hgt').2, List.mem_singleton] at hin
      exact hne (Nat.sub_one_cancel (Nat.zero_lt_of_lt hgt') (Nat.zero_lt_of_lt hg) hin.symm)
  · rw [size_push] at hlt
    rcases Nat.lt_succ_iff_lt_or_eq.1 hlt with hlt | rfl
    · rw [(without_of_lt hlt).1]
      exact hlt
    · rw [without_self.1]
      exact hf
  · rcases Nat.lt_trichotomy g s.size with hlt | rfl | hgt
    · rw [chain_push_of_lt hlt, hold g hlt, (without_of_lt hlt).1]
    · rw [chain_push_self, List.flatMap_cons, hold f hf, without_self.1, without_self.2, List.nil_append]
    · have hnil : (s.push [] (some f)).chain g = [] := chain_eq_nil (by rw [size_push]; exact hgt)
      rw [hnil, (without_of_gt hgt).1, chain_eq_nil (Nat.le_sub_one_of_lt hgt)]
      rfl
  · rcases Nat.lt_trichotomy g s.size with hlt | rfl | hgt
    · rw [bindings_push, if_neg (Nat.ne_of_lt hlt), (without_of_lt hlt).2, List.findSome?_singleton,
        hvalues _ (hs.within.bindings g)]
    · rw [bindings_push, if_pos rfl, without_self.2]
      rfl
    · rw [bindings_push, if_neg (Nat.ne_of_gt hgt), (without_of_gt hgt).2, List.findSome?_singleton,
        bindings_eq_nil hgt.le, bindings_eq_nil (Nat.le_sub_one_of_lt hgt)]
      rfl

/-! ## One more frame on a level -/

/-- `c` is spread over one more frame, the next one of `t`; frames inside `c` are no longer live -/
def Spreading.shift (p : Spreading) (s t : Store) (c : FrameId) : Spreading where
  number g := if g = c then t.size else if g < s.size then p.number g else t.size + 1 + (g - s.size)
  level g := if g = c then t.size :: p.level c else if g < s.size then p.level g else [t.size + 1 + (g - s.size)]
  live := {g | g = c ∨ g ∈ p.live ∧ c ∉ s.chain g}

namespace Spreading

variable {p : Spreading} {s t : Store} {c g : FrameId}

theorem shift_self : (p.shift s t c).number c = t.size ∧ (p.shift s t c).level c = t.size :: p.level c := by
  simp [shift]

theorem shift_old (hne : g ≠ c) (hlt : g < s.size) :
    (p.shift s t c).number g = p.number g ∧ (p.shift s t c).level g = p.level g := by
  simp [shift, hne, hlt]

theorem shift_new (hc : c < s.size) (hge : s.size ≤ g) :
    (p.shift s t c).number g = t.size + 1 + (g - s.size) ∧
      (p.shift s t c).level g = [t.size + 1 + (g - s.size)] := by
  have hne : g ≠ c := Nat.ne_of_gt (hc.trans_le hge)
  simp [shift, hne, Nat.not_lt.2 hge]

end Spreading

/-- a frame is not around itself -/
theorem Store.WellFormed.chain_eq_cons {s : Store} (hs : s.WellFormed) {g : FrameId} (hg : g < s.size) :
    ∃ rest, s.chain g = g :: rest ∧ ∀ r ∈ rest, g ∉ s.chain r := by
  obtain ⟨frame, hframe⟩ := exists_frame hg
  cases houter : frame.outer with
  | none => exact ⟨[], chain_root hframe houter, by simp⟩
  | some outer =>
    have hlt := hs.outer_lt g frame outer hframe houter
    refine ⟨_, chain_inner hframe houter hlt, fun r hr hin => ?_⟩
    have hle : g ≤ outer := le_of_mem_chain hs (hlt.trans hg) (mem_chain_trans hr hin)
    exact Nat.not_lt.2 hle hlt

namespace Store.Spread

variable {p : Spreading} {s t : Store} {c g : FrameId} {x : String} {v : Datum}

section

variable (h : s.Spread p t) (hs : s.Sealed c) (hc : c ∈ p.live)

include h hs hc

theorem shift_level_le (hg : g ∈ (p.shift s t c).live) (hlt : g < s.size) {r : FrameId}
    (hr : r ∈ (p.shift s t c).level g) : r ≤ t.size ∧ (g ≠ c → r < t.size) := by
  by_cases hgc : g = c
  · subst hgc
    rw [shift_self.2] at hr
    rcases List.mem_cons.1 hr with rfl | hr
    · exact ⟨le_rfl, fun hne => absurd rfl hne⟩
    · exact ⟨(h.level_lt hc hs.lt hr).le, fun hne => absurd rfl hne⟩
  · rw [(shift_old hgc hlt).2] at hr
    have hlt' := h.level_lt (hg.resolve_left hgc).1 hlt hr
    exact ⟨hlt'.le, fun _ => hlt'⟩

/-- the frame with the new number stands alone -/
theorem shift_alone_self : (p.shift s t c).Alone c := by
  refine ⟨⟨_, by rw [shift_self.1, shift_self.2]⟩, fun g hg hne hin => ?_⟩
  rw [shift_self.1] at hin
  by_cases hlt : g < s.size
  · exact absurd ((h.shift_level_le hs hc hg hlt hin).2 hne) (Nat.lt_irrefl _)
  · rw [(shift_new hs.lt (Nat.le_of_not_lt hlt)).2, List.mem_singleton] at hin
    exact absurd hin (Nat.ne_of_lt (by omega))

/-- and so do the frames that stood alone before -/
theorem shift_alone (hg : g ∈ p.live) (hne : g ≠ c) (hlt : g < s.size) (halone : p.Alone g) :
    (p.shift s t c).Alone g := by
  obtain ⟨rest, hrest⟩ := halone.first
  have hnumber := shift_old (p := p) (t := t) hne hlt
  refine ⟨⟨rest, by rw [hnumber.1, hnumber.2, hrest]⟩, fun r hr hrg hin => ?_⟩
  rw [hnumber.1] at hin
  by_cases hrc : r = c
  · subst hrc
    rw [shift_self.2] at hin
    rcases List.mem_cons.1 hin with heq | hin
    · exact absurd heq (Nat.ne_of_lt (h.lt g hg hlt))
    · exact halone.apart r hc hrg hin
  · by_cases hltr : r < s.size
    · rw [(shift_old hrc hltr).2] at hin
      exact halone.apart r (hr.resolve_left hrc).1 hrg hin
    · rw [(shift_new hs.lt (Nat.le_of_not_lt hltr)).2, List.mem_singleton] at hin
      have hnew := h.lt g hg hlt
      rw [hin] at hnew
      exact Nat.not_lt.2 ((Nat.le_succ _).trans (Nat.le_add_right _ _)) hnew

theorem shift_fresh (hge : s.size ≤ g) : g ∈ (p.shift s t c).live ∧
    (p.shift s t c).level g = [(p.shift s t c).number g] ∧ (p.shift s t c).Alone g := by
  have hnew := shift_new (p := p) (t := t) hs.lt hge
  have hlevel : (p.shift s t c).level g = [(p.shift s t c).number g] := by rw [hnew.1, hnew.2]
  have hlive : g ∈ (p.shift s t c).live := by
    refine Or.inr ⟨(h.fresh g hge).1, ?_⟩
    rw [chain_eq_nil hge]
    exact List.not_mem_nil
  refine ⟨hlive, hlevel, ⟨[], hlevel⟩, fun r hr hrg hin => ?_⟩
  rw [hnew.1] at hin
  by_cases hltr : r < s.size
  · exact absurd (h.shift_level_le hs hc hr hltr hin).1 (Nat.not_le.2 (by omega))
  · have hger := Nat.le_of_not_lt hltr
    rw [(shift_new hs.lt hger).2, List.mem_singleton] at hin
    have hsub : g - s.size = r - s.size := Nat.add_left_cancel hin
    exact hrg (by rw [← Nat.sub_add_cancel hger, ← hsub, Nat.sub_add_cancel hge])

omit h hc in
/-- the frames that functions outside captured keep their numbers -/
theorem shift_renumber (hv : v.Outside s c) :
    v.renumber (p.shift s t c).number = v.renumber p.number := by
  refine Datum.renumber_congr (Datum.AllClosures.mono hv fun _ _ g hg => ?_)
  have hne : g ≠ c := by
    rintro rfl
    exact hg.2 (self_mem_chain hg.1)
  exact (shift_old hne hg.1).1

omit h hs hc in
theorem shift_holds (hv : v.Outside s c) (hheld : p.Holds v) : (p.shift s t c).Holds v :=
  fun params body g hin => Or.inr ⟨hheld params body g hin, (hv params body g hin).2⟩

omit h hc in
/-- so what is bound is the same up to the numbers that it had before -/
theorem shift_value? (g : FrameId) (y : String) : ((s.bindings g).value? y).map (Datum.renumber (p.shift s t c).number)
    = ((s.bindings g).value? y).map (Datum.renumber p.number) := by
  cases hy : (s.bindings g).value? y with
  | none => rfl
  | some u => exact congrArg some (shift_renumber hs ((hs.outside.bindings g).value hy))

omit hc in
theorem shift_held (hg : g ∈ p.live) : (s.bindings g).All (p.shift s t c).Holds :=
  fun b hb => shift_holds (hs.outside.bindings g b hb) (h.held g hg b hb)

omit h hs hc in
/-- the levels of the frames in a chain are the same where `c` is not among them -/
theorem shift_flatMap {rs : List FrameId} (hrs : ∀ r ∈ rs, r < s.size ∧ r ≠ c) :
    rs.flatMap (p.shift s t c).level = rs.flatMap p.level :=
  List.flatMap_congr fun r hr => (shift_old (hrs r hr).2 (hrs r hr).1).2

/-- the frames around live frames are live -/
theorem shift_around (hg : g ∈ (p.shift s t c).live) {r : FrameId} (hr : r ∈ s.chain g) :
    r ∈ (p.shift s t c).live := by
  obtain ⟨rest, hrest, hself⟩ := hs.wellFormed.chain_eq_cons hs.lt
  rcases hg with rfl | ⟨hg, hout⟩
  · have hlive := h.around g hc r hr
    rw [hrest] at hr
    rcases List.mem_cons.1 hr with rfl | hr
    · exact Or.inl rfl
    · exact Or.inr ⟨hlive, hself r hr⟩
  · exact Or.inr ⟨h.around g hg r hr, fun hin => hout (mem_chain_trans hr hin)⟩

/-- the new frame goes first where a chain goes through the level of `c` -/
theorem shift_chain (hg : g ∈ (p.shift s t c).live) (bindings : Bindings) :
    (t.push bindings (some (p.number c))).chain ((p.shift s t c).number g)
      = (s.chain g).flatMap (p.shift s t c).level := by
  by_cases hgc : g = c
  · obtain ⟨rest, hrest, hself⟩ := hs.wellFormed.chain_eq_cons hs.lt
    have hlevels : rest.flatMap (p.shift s t c).level = rest.flatMap p.level := by
      refine shift_flatMap fun r hr => ?_
      have hlt : r < s.size := by
        refine lt_size_of_mem_chain (s := s) (g := c) ?_
        rw [hrest]
        exact List.mem_cons_of_mem _ hr
      refine ⟨hlt, ?_⟩
      rintro rfl
      exact hself r hr (self_mem_chain hlt)
    rw [hgc, shift_self.1, chain_push_self, h.chain c hc, hrest, List.flatMap_cons, List.flatMap_cons, hlevels,
      shift_self.2, List.cons_append]
  · obtain ⟨hg, hout⟩ := hg.resolve_left hgc
    have hlevels : (s.chain g).flatMap (p.shift s t c).level = (s.chain g).flatMap p.level := by
      refine shift_flatMap fun r hr => ⟨lt_size_of_mem_chain hr, ?_⟩
      rintro rfl
      exact hout hr
    rw [hlevels]
    by_cases hlt : g < s.size
    · rw [(shift_old hgc hlt).1, chain_push_of_lt (h.lt g hg hlt), h.chain g hg]
    · have hge := Nat.le_of_not_lt hlt
      rw [(shift_new hs.lt hge).1, chain_eq_nil hge, chain_eq_nil]
      · rfl
      · rw [size_push]
        exact Nat.le_add_right _ _

/-- the value is found in the new frame, and all others where they were -/
theorem shift_values (hg : g ∈ (p.shift s t c).live) (x : String) (hv : v.Outside s c) (y : String) :
    ((p.shift s t c).level g).findSome? (fun r => ((t.push (Bindings.ofPairs [(x, v.renumber p.number)])
        (some (p.number c))).bindings r).value? y)
      = (((s.define c x v).bindings g).value? y).map (Datum.renumber (p.shift s t c).number) := by
  have hmade : (Bindings.ofPairs [(x, v.renumber p.number)]).value? y
      = if x = y then some (v.renumber p.number) else none := by
    simp [Bindings.ofPairs, Bindings.assignAll, Bindings.assign, Bindings.value?_cons]
  by_cases hgc : g = c
  · subst hgc
    rw [shift_self.2, List.findSome?_cons, bindings_push, if_pos rfl, hmade, value?_define]
    by_cases hy : x = y
    · rw [if_pos hy, if_pos ⟨⟨rfl, hy.symm⟩, hs.lt⟩, Option.map_some, shift_renumber hs hv]
    · rw [if_neg hy, if_neg fun hcond => hy hcond.1.2.symm, shift_value? hs, ← h.values g hc y]
      refine findSome?_congr fun r hr => ?_
      rw [bindings_push, if_neg (Nat.ne_of_lt (h.level_lt hc hs.lt hr))]
  · have hg' := (hg.resolve_left hgc).1
    rw [value?_define, if_neg fun hcond => hgc hcond.1.1.symm]
    by_cases hlt : g < s.size
    · rw [(shift_old hgc hlt).2, shift_value? hs, ← h.values g hg' y]
      refine findSome?_congr fun r hr => ?_
      rw [bindings_push, if_neg (Nat.ne_of_lt (h.level_lt hg' hlt hr))]
    · have hge := Nat.le_of_not_lt hlt
      have hbeyond : t.size < t.size + 1 + (g - s.size) := by omega
      rw [(shift_new hs.lt hge).2, List.findSome?_singleton, bindings_push, if_neg (Nat.ne_of_gt hbeyond),
        bindings_eq_nil hge, bindings_eq_nil hbeyond.le]
      rfl

/-- **One more frame on a level**: in a sealed frame a name is bound, and in the other store it is bound in a new frame
inside the one that code sees there -/
theorem shift (x : String) (hv : v.Outside s c) (hheld : p.Holds v) :
    (s.define c x v).Spread (p.shift s t c)
      (t.push (Bindings.ofPairs [(x, v.renumber p.number)]) (some (p.number c))) := by
  refine ⟨fun i => ?_, fun g hg => ?_, fun g hg hlt => ?_, fun g hg r hr => ?_, fun g hg => ?_, fun g hg y => ?_,
    fun g hg => ?_⟩
  · rw [size_define, size_push, (shift_new hs.lt (Nat.le_add_right _ i)).1, Nat.add_sub_cancel_left]
  · rw [size_define] at hg
    exact h.shift_fresh hs hc hg
  · rw [size_define] at hlt
    rw [size_push]
    by_cases hgc : g = c
    · rw [hgc, shift_self.1]
      exact Nat.lt_succ_self _
    · rw [(shift_old hgc hlt).1]
      exact Nat.lt_succ_of_lt (h.lt g (hg.resolve_left hgc).1 hlt)
  · rw [chain_define] at hr
    exact h.shift_around hs hc hg hr
  · rw [chain_define]
    exact h.shift_chain hs hc hg _
  · exact h.shift_values hs hc hg x hv y
  · have hlive : g ∈ p.live := by
      rcases hg with rfl | ⟨hg, -⟩
      · exact hc
      · exact hg
    rw [bindings_define]
    split
    · exact (h.shift_held hs hlive).assign x (shift_holds hv hheld)
    · exact h.shift_held hs hlive

end

end Store.Spread

end FrameLisp
