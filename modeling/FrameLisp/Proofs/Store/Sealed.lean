/-
Stores in which no function knows of a frame.

A value lies outside the frame `c` when no function in it captured `c` or a frame inside `c` (`Datum.Outside`). The
frame is sealed when all bound values lie outside it (`Store.Sealed`): no call can get into it, and only code that runs
there can see it. New frames and new bindings of values that lie outside keep it sealed (`Sealed.push`,
`Sealed.define`).
-/
import FrameLisp.Proofs.Store.Mirrors

namespace FrameLisp

/-- no function in the value captured `c` or a frame inside it -/
def Datum.Outside (s : Store) (c : FrameId) (v : Datum) : Prop :=
  v.AllClosures fun _ _ g => g < s.size ∧ c ∉ s.chain g

namespace Datum.Outside

variable {s t : Store} {c : FrameId} {v : Datum}

theorem within (h : v.Outside s c) : v.Within s.size := AllClosures.mono h fun _ _ _ hg => hg.1

theorem later (h : v.Outside s c) (hst : s.Extends t) (hs : s.WellFormed) : v.Outside t c := by
  refine AllClosures.mono h fun _ _ g hg => ⟨hg.1.trans_le hst.size_le, ?_⟩
  rw [Store.chain_of_extends hst hs hg.1]
  exact hg.2

end Datum.Outside

/-- what is older than a frame lies outside it -/
theorem Datum.Within.outside {s : Store} {c : FrameId} {v : Datum} (h : v.Within c) (hs : s.WellFormed)
    (hc : c ≤ s.size) : v.Outside s c := by
  refine AllClosures.mono h fun _ _ g hg => ⟨hg.trans_le hc, fun hin => ?_⟩
  exact Nat.not_le.2 hg (Store.le_of_mem_chain hs (hg.trans_le hc) hin)

namespace Store

/-- all bound values lie outside `c` -/
structure Sealed (c : FrameId) (s : Store) : Prop where
  wellFormed : s.WellFormed
  lt : c < s.size
  outside : s.All (Datum.Outside s c)

namespace Sealed

variable {s : Store} {c f outer : FrameId} {v : Datum}

theorem push (h : s.Sealed c) {pairs : List (String × Datum)} (hpairs : ∀ pair ∈ pairs, pair.2.Outside s c)
    (houter : outer < s.size) : (s.push (Bindings.ofPairs pairs) (some outer)).Sealed c := by
  have hext := extends_push s (Bindings.ofPairs pairs) (some outer)
  have hold : s.All (Datum.Outside (s.push (Bindings.ofPairs pairs) (some outer)) c) :=
    h.outside.mono fun v hv => hv.later hext h.wellFormed
  refine ⟨h.wellFormed.push (Bindings.all_ofPairs fun pair hpair => (hpairs pair hpair).within) ?_, ?_, ?_⟩
  · intro g hg
    cases hg
    exact houter
  · rw [size_push]
    exact Nat.lt_succ_of_lt h.lt
  · exact hold.push (Bindings.all_ofPairs fun pair hpair => (hpairs pair hpair).later hext h.wellFormed) (some outer)

theorem define (h : s.Sealed c) (f : FrameId) (x : String) (hv : v.Outside s c) : (s.define f x v).Sealed c := by
  have hext := (changesOnly_define s f x v).extends
  have hold : s.All (Datum.Outside (s.define f x v) c) := h.outside.mono fun v hv => hv.later hext h.wellFormed
  refine ⟨h.wellFormed.define f x hv.within, ?_, hold.define f x (hv.later hext h.wellFormed)⟩
  rw [size_define]
  exact h.lt

/-- a new frame inside an old one is sealed -/
theorem of_push (hs : s.WellFormed) (houter : outer < s.size) : (s.push [] (some outer)).Sealed s.size := by
  have hwell : (s.push [] (some outer)).WellFormed := by
    refine hs.push Bindings.all_nil fun g hg => ?_
    cases hg
    exact houter
  have hall : s.All (Datum.Outside (s.push [] (some outer)) s.size) :=
    hs.within.mono fun v hv => hv.outside hwell (by simp)
  exact ⟨hwell, by simp, hall.push Bindings.all_nil (some outer)⟩

end Sealed

end Store

end FrameLisp
