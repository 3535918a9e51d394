/-
Calls of builtins.

A builtin takes values and gives a value, and its result consists of numbers, texts and what its arguments consist of:
a condition that goes by the items of lists (`Itemwise`) passes from the arguments to the result (`Itemwise.result`). So
a result has no functions inside but those of the arguments (`free_result`), and no other closures either
(`allClosures_result`). A builtin fails only for operands that it does not work with (`ofBuiltin_of_result`) or because
data that it would show are nested too deeply, for which there is always a limit that is large enough
(`exists_showsWithin`). However a call ends, the store is as it was (`call_endsIn`).
-/
import FrameLisp.Proofs.Datum.Free

namespace FrameLisp

/-- a builtin got operands that it does not work with -/
def Fault.OfBuiltin (fault : Fault) : Prop :=
  (∃ b got, fault = .notSequence b got) ∨ ∃ b x y, fault = .badOperands b x y

namespace Datum

variable {p : List String → List Datum → FrameId → Prop}

/-! ## What results consist of -/

/-- a condition that numbers, texts and the absent value meet, and a list just if all its items do -/
structure Itemwise (p : Datum → Prop) : Prop where
  absent : p .absent
  number (x : Float) : p (.number x)
  text (s : String) : p (.text s)
  list_iff {items : List Datum} : p (.list items) ↔ ∀ d ∈ items, p d

namespace Itemwise

variable {p : Datum → Prop} (hp : Itemwise p)

include hp

theorem operand {args : List Datum} (h : ∀ a ∈ args, p a) (place : Nat) : p (Builtin.operand args place) := by
  unfold Builtin.operand
  rw [List.getD_eq_getElem?_getD]
  cases ha : args[place]? with
  | none => exact hp.absent
  | some a => exact h a (List.mem_of_getElem? ha)

theorem firstOf {d v : Datum} (h : p d) (hv : Builtin.firstOf? d = some v) : p v := by
  unfold Builtin.firstOf? at hv
  split at hv
  · next items =>
    cases hv
    cases items with
    | nil => exact hp.absent
    | cons item items => exact hp.list_iff.1 h item (by simp)
  · next s =>
    cases hv
    split
    · exact hp.absent
    · exact hp.text _
  · cases hv

theorem restOf {d v : Datum} (h : p d) (hv : Builtin.restOf? d = some v) : p v := by
  unfold Builtin.restOf? at hv
  split at hv
  · next items =>
    cases hv
    rw [hp.list_iff] at h ⊢
    exact fun d hmem => h d (List.mem_of_mem_tail hmem)
  · cases hv
    exact hp.text _
  · cases hv

theorem sum {d e v : Datum} (hd : p d) (he : p e) (hv : Builtin.sum? d e = some v) : p v := by
  unfold Builtin.sum? at hv
  split at hv
  · cases hv
    exact hp.number _
  · cases hv
    exact hp.text _
  · cases hv
    rw [hp.list_iff] at hd he ⊢
    intro c hmem
    rcases List.mem_append.1 hmem with hmem | hmem
    · exact hd c hmem
    · exact he c hmem
  · cases hv

theorem numeric {op : Float → Float → Float} {d e v : Datum} (hv : Builtin.numeric? op d e = some v) : p v := by
  unfold Builtin.numeric? at hv
  split at hv
  · cases hv
    exact hp.number _
  · cases hv

/-- what all arguments meet, the result meets -/
theorem result {b : Builtin} {args : List Datum} {v : Datum} (h : ∀ a ∈ args, p a) (hv : b.result args = .ok v) :
    p v := by
  have hx := hp.operand h 0
  have hy := hp.operand h 1
  have helim : ∀ {r : Option Datum} {fault : Fault}, r.elim (.error fault) .ok = Except.ok v → r = some v := by
    intro r fault hr
    cases r with
    | none => cases hr
    | some u =>
      cases hr
      rfl
  cases b with
  | first => exact hp.firstOf hx (helim hv)
  | rest => exact hp.restOf hx (helim hv)
  | print => cases hv; exact hx
  | add => exact hp.sum hx hy (helim hv)
  | subtract => exact hp.numeric (helim hv)
  | multiply => exact hp.numeric (helim hv)
  | divide => exact hp.numeric (helim hv)

end Itemwise

theorem itemwise_free {bad : Datum → Prop} (hbad : OnlyFunctions bad) : Itemwise (Free bad) where
  absent := free_absent hbad
  number := free_number hbad
  text := free_text hbad
  list_iff := free_list hbad

theorem itemwise_allClosures : Itemwise (AllClosures p) where
  absent := allClosures_absent
  number := allClosures_number
  text := allClosures_text
  list_iff := allClosures_list

/-- a builtin makes no functions -/
theorem free_result {bad : Datum → Prop} (hbad : OnlyFunctions bad) {b : Builtin} {args : List Datum} {v : Datum}
    (h : ∀ a ∈ args, a.Free bad) (hv : b.result args = .ok v) : v.Free bad :=
  (itemwise_free hbad).result h hv

theorem allClosures_operand {args : List Datum} (h : ∀ a ∈ args, a.AllClosures p) (place : Nat) :
    (Builtin.operand args place).AllClosures p :=
  itemwise_allClosures.operand h place

/-- a builtin makes no closures -/
theorem allClosures_result {b : Builtin} {args : List Datum} {v : Datum} (h : ∀ a ∈ args, a.AllClosures p)
    (hv : b.result args = .ok v) : v.AllClosures p :=
  itemwise_allClosures.result h hv

/-! ## Room -/

theorem exists_all_nestedWithin {items : List Datum} (h : ∀ d ∈ items, ∃ limit, d.nestedWithin limit = true) :
    ∃ limit, items.all (·.nestedWithin limit) = true := by
  induction items with
  | nil => exact ⟨0, rfl⟩
  | cons d items ih =>
    rw [List.forall_mem_cons] at h
    obtain ⟨limit, hd⟩ := h.1
    obtain ⟨limit', hitems⟩ := ih h.2
    refine ⟨max limit limit', ?_⟩
    rw [List.all_cons, Bool.and_eq_true, List.all_eq_true]
    rw [List.all_eq_true] at hitems
    refine ⟨nestedWithin_mono (le_max_left ..) hd, fun e he => ?_⟩
    exact nestedWithin_mono (le_max_right ..) (hitems e he)

/-- every datum is nested only so deep -/
theorem exists_nestedWithin (d : Datum) : ∃ limit, d.nestedWithin limit = true := by
  induction d using Datum.induct with
  | list items ih =>
    obtain ⟨limit, hitems⟩ := exists_all_nestedWithin ih
    exact ⟨limit + 1, by rw [nestedWithin_list_succ, hitems]⟩
  | _ => exact ⟨0, by simp only [nestedWithin]⟩

end Datum

namespace Builtin

theorem exists_showsWithin (b : Builtin) (args : List Datum) : ∃ limit, b.showsWithin limit args = true :=
  Datum.exists_all_nestedWithin fun d _ => Datum.exists_nestedWithin d

/-! ## Ends of calls -/

theorem ofBuiltin_of_result {b : Builtin} {args : List Datum} {fault : Fault} (h : b.result args = .error fault) :
    fault.OfBuiltin := by
  have helim : ∀ {r : Option Datum} {e : Fault}, r.elim (.error e) .ok = (Except.error fault : Except Fault Datum) →
      fault = e := by
    intro r e hr
    cases r with
    | none =>
      cases hr
      rfl
    | some v => cases hr
  cases b with
  | first | rest => exact Or.inl ⟨_, _, helim h⟩
  | print => cases h
  | add | subtract | multiply | divide => exact Or.inr ⟨_, _, _, helim h⟩

/-- a builtin leaves the store alone, and it fails for its operands or for depth -/
theorem call_endsIn {room : Nat} {b : Builtin} {args : List Datum} {w : World} {R : Store → Store → Prop}
    {failed : Fault → Prop} {ok : Store → Datum → Prop} (hstore : R w.store w.store)
    (hok : ∀ v, b.result args = .ok v → ok w.store v) (hfailed : ∀ fault, b.result args = .error fault → failed fault)
    (hdeep : failed .tooDeep) : (b.call room args).EndsIn R failed w ok := by
  by_cases hshows : b.showsWithin room args = true
  · have hcall := call_of_showsWithin hshows w
    cases hr : b.result args with
    | ok v =>
      rw [hr] at hcall
      exact Effect.endsIn_ok hcall hstore (hok v hr)
    | error fault =>
      rw [hr] at hcall
      exact Effect.endsIn_error hcall hstore (hfailed fault hr)
  · have hcall : b.call room args w = (.error .tooDeep, w) := if_neg hshows
    exact Effect.endsIn_error hcall hstore hdeep

end Builtin

end FrameLisp
