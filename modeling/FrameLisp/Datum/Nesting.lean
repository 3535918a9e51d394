/-
How deep the lists of a datum are nested.

A list is one deeper than the deepest of its items, and everything else has no depth: a closure shows nothing of
its body. `nestedWithin` asks whether a datum stays within a limit and stops at the first item that does not, so
it never looks deeper than the limit. A larger limit admits no less (`nestedWithin_mono`).
-/
import FrameLisp.Datum

namespace FrameLisp.Datum

mutual

/-- whether the lists of a datum are nested at most so deep -/
def nestedWithin (limit : Nat) : Datum → Bool
  | .list items =>
    match limit with
    | 0 => false
    | inner + 1 => allNestedWithin inner items
  | _ => true

/-- whether that holds of all items of a list -/
def allNestedWithin (limit : Nat) : List Datum → Bool
  | [] => true
  | d :: ds => nestedWithin limit d && allNestedWithin limit ds

end

theorem allNestedWithin_eq_all (limit : Nat) (items : List Datum) :
    allNestedWithin limit items = items.all (nestedWithin limit) := by
  induction items with
  | nil => rfl
  | cons d ds ih => rw [allNestedWithin, ih, List.all_cons]

theorem nestedWithin_list_zero (items : List Datum) : nestedWithin 0 (.list items) = false := by
  rw [nestedWithin]

theorem nestedWithin_list_succ (limit : Nat) (items : List Datum) :
    nestedWithin (limit + 1) (.list items) = items.all (nestedWithin limit) := by
  rw [nestedWithin, allNestedWithin_eq_all]

theorem nestedWithin_mono {small large : Nat} (hle : small ≤ large) {d : Datum} (h : d.nestedWithin small = true) :
    d.nestedWithin large = true := by
  induction d using Datum.induct generalizing small large with
  | list items ih =>
    cases small with
    | zero => rw [nestedWithin_list_zero] at h; cases h
    | succ small =>
      obtain ⟨large, rfl⟩ := Nat.exists_eq_succ_of_ne_zero (Nat.ne_of_gt (Nat.lt_of_lt_of_le (Nat.succ_pos _) hle))
      rw [nestedWithin_list_succ, List.all_eq_true] at h ⊢
      exact fun d hmem => ih d hmem (Nat.le_of_succ_le_succ hle) (h d hmem)
  | _ => simp only [nestedWithin]

end FrameLisp.Datum
