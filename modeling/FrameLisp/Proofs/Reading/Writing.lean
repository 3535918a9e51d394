/-
Forms written out.

Written out, a list is an opening parenthesis, its items and a closing parenthesis, and everything else is a leaf that
stands for itself. Tokens are signs of the same kind: two of them are the parentheses, and every other one is the leaf
with its atom.

Results:
- `Datum.readAll_of_signs`: tokens with the signs of some forms are read as these forms.
- `Datum.leaves_eq`, `Datum.lists_eq`: how many lists there are, and which leaves, is seen from the signs.
-/
import FrameLisp.Datum.Reading
import FrameLisp.Proofs.Token.Layout

namespace FrameLisp

/-- what forms are written out with -/
inductive Sign where
  | opening
  | closing
  | leaf (d : Datum)

namespace Sign

/-- what a token is in a written form -/
def ofToken (t : String) : Sign :=
  if t = "(" then .opening else if t = ")" then .closing else .leaf (.atom (.ofToken t))

def isOpening : Sign → Bool
  | .opening => true
  | _ => false

def leaf? : Sign → Option Datum
  | .leaf d => some d
  | _ => none

@[simp] theorem ofToken_open : ofToken "(" = .opening := rfl

@[simp] theorem ofToken_close : ofToken ")" = .closing := rfl

theorem ofToken_atom {t : String} (ht : ¬ Token.IsParen t) : ofToken t = .leaf (.atom (.ofToken t)) := by
  rw [ofToken, if_neg fun h => ht (.inl h), if_neg fun h => ht (.inr h)]

theorem ofToken_eq_opening_iff {t : String} : ofToken t = .opening ↔ t = "(" := by
  unfold ofToken
  split_ifs <;> simp_all

theorem ofToken_eq_closing_iff {t : String} : ofToken t = .closing ↔ t = ")" := by
  unfold ofToken
  split_ifs <;> simp_all

theorem ofToken_eq_leaf_iff {t : String} {d : Datum} :
    ofToken t = .leaf d ↔ ¬ Token.IsParen t ∧ d = .atom (.ofToken t) := by
  by_cases ht : Token.IsParen t
  · rcases ht with rfl | rfl <;> simp [Token.IsParen]
  · rw [ofToken_atom ht, leaf.injEq]
    exact ⟨fun h => ⟨ht, h.symm⟩, fun h => h.2.symm⟩

end Sign

namespace Datum

mutual

/-- a form written out -/
def signs : Datum → List Sign
  | .list items => .opening :: (signsAll items ++ [.closing])
  | d => [.leaf d]

/-- forms written out one after another -/
def signsAll : List Datum → List Sign
  | [] => []
  | d :: ds => signs d ++ signsAll ds

end

mutual

/-- the leaves of a form from left to right -/
def leaves : Datum → List Datum
  | .list items => leavesAll items
  | d => [d]

/-- the leaves of forms one after another -/
def leavesAll : List Datum → List Datum
  | [] => []
  | d :: ds => leaves d ++ leavesAll ds

end

mutual

/-- how many lists a form has, itself and those in it -/
def lists : Datum → Nat
  | .list items => listsAll items + 1
  | _ => 0

/-- how many lists forms have -/
def listsAll : List Datum → Nat
  | [] => 0
  | d :: ds => lists d + listsAll ds

end

theorem signsAll_append (ds es : List Datum) : signsAll (ds ++ es) = signsAll ds ++ signsAll es := by
  induction ds with
  | nil => rfl
  | cons d ds ih => rw [List.cons_append, signsAll, signsAll, ih, List.append_assoc]

/-! ## What the signs tell -/

mutual

theorem leaves_eq (d : Datum) : d.leaves = d.signs.filterMap Sign.leaf? := by
  cases d with
  | list items =>
    rw [leaves, leavesAll_eq items, signs, List.filterMap_cons, List.filterMap_append]
    simp [Sign.leaf?]
  | _ => rfl

theorem leavesAll_eq (ds : List Datum) : leavesAll ds = (signsAll ds).filterMap Sign.leaf? := by
  cases ds with
  | nil => rfl
  | cons d ds => rw [leavesAll, leaves_eq d, leavesAll_eq ds, signsAll, List.filterMap_append]

end

mutual

theorem lists_eq (d : Datum) : d.lists = d.signs.countP Sign.isOpening := by
  cases d with
  | list items =>
    rw [lists, listsAll_eq items, signs, List.countP_cons, List.countP_append]
    simp [Sign.isOpening]
  | _ => rfl

theorem listsAll_eq (ds : List Datum) : listsAll ds = (signsAll ds).countP Sign.isOpening := by
  cases ds with
  | nil => rfl
  | cons d ds => rw [listsAll, lists_eq d, listsAll_eq ds, signsAll, List.countP_append]

end

/-! ## Reading what is written out -/

/-- tokens with the sign of a leaf: one token, which is no parenthesis -/
theorem eq_of_signs_leaf {ts : List String} {d : Datum} (h : ts.map Sign.ofToken = [.leaf d]) :
    ∃ t, ts = [t] ∧ t ≠ "(" ∧ t ≠ ")" ∧ d = .atom (.ofToken t) := by
  obtain ⟨t, rfl, ht⟩ := List.map_eq_singleton_iff.1 h
  obtain ⟨hparen, hd⟩ := Sign.ofToken_eq_leaf_iff.1 ht
  exact ⟨t, rfl, fun h => hparen (.inl h), fun h => hparen (.inr h), hd⟩

/-- tokens with the signs of a list: parentheses, and between them tokens with the signs of the items -/
theorem eq_of_signs_list {ts : List String} {items : List Datum} (h : ts.map Sign.ofToken = (list items).signs) :
    ∃ us, ts = "(" :: (us ++ [")"]) ∧ us.map Sign.ofToken = signsAll items := by
  rw [signs] at h
  obtain ⟨t, vs, rfl, ht, hvs⟩ := List.map_eq_cons_iff.1 h
  obtain ⟨us, ws, rfl, hus, hws⟩ := List.map_eq_append_iff.1 hvs
  obtain ⟨u, rfl, hu⟩ := List.map_eq_singleton_iff.1 hws
  exact ⟨us, by rw [Sign.ofToken_eq_opening_iff.1 ht, Sign.ofToken_eq_closing_iff.1 hu], hus⟩

theorem readList_of_leaf {ts : List String} {d : Datum} (h : ts.map Sign.ofToken = [.leaf d]) (items : List Datum)
    (outers : List (List Datum)) (rest : List String) :
    readList items outers (ts ++ rest) = readList (d :: items) outers rest := by
  obtain ⟨t, rfl, hopen, hclose, rfl⟩ := eq_of_signs_leaf h
  rw [List.singleton_append, readList_atom hopen hclose]

mutual

/-- within a list, tokens with the signs of a form are read as the form -/
theorem readList_of_signs (d : Datum) {ts : List String} (h : ts.map Sign.ofToken = d.signs) (items : List Datum)
    (outers : List (List Datum)) (rest : List String) :
    readList items outers (ts ++ rest) = readList (d :: items) outers rest := by
  cases d with
  | list inner =>
    obtain ⟨us, rfl, hus⟩ := eq_of_signs_list h
    have hinner := readList_of_signsAll inner hus [] (items :: outers) (")" :: rest)
    rw [List.cons_append, List.append_assoc, List.singleton_append, readList_open, hinner, readList_close,
      List.append_nil, List.reverse_reverse]
  | _ => exact readList_of_leaf h items outers rest

theorem readList_of_signsAll (ds : List Datum) {ts : List String} (h : ts.map Sign.ofToken = signsAll ds)
    (items : List Datum) (outers : List (List Datum)) (rest : List String) :
    readList items outers (ts ++ rest) = readList (ds.reverse ++ items) outers rest := by
  cases ds with
  | nil =>
    rw [signsAll, List.map_eq_nil_iff] at h
    rw [h]
    rfl
  | cons d ds =>
    rw [signsAll] at h
    obtain ⟨us, vs, rfl, hus, hvs⟩ := List.map_eq_append_iff.1 h
    rw [List.append_assoc, readList_of_signs d hus, readList_of_signsAll ds hvs, List.reverse_cons, List.append_assoc,
      List.singleton_append]

end

theorem read?_of_signs {d : Datum} {ts : List String} (h : ts.map Sign.ofToken = d.signs) (rest : List String) :
    read? (ts ++ rest) = some (d, rest) := by
  have hleaf (h : ts.map Sign.ofToken = [.leaf d]) : read? (ts ++ rest) = some (d, rest) := by
    obtain ⟨t, rfl, hopen, hclose, rfl⟩ := eq_of_signs_leaf h
    rw [List.singleton_append, read?, if_neg hclose, if_neg hopen]
  cases d with
  | list items =>
    obtain ⟨us, rfl, hus⟩ := eq_of_signs_list h
    have hitems := readList_of_signsAll items hus [] [] (")" :: rest)
    rw [List.cons_append, List.append_assoc, List.singleton_append, read?, if_neg (by decide), if_pos rfl, hitems,
      readList_close_last, List.append_nil, List.reverse_reverse]
  | _ => exact hleaf h

/-- **Reading takes writing back.** Tokens with the signs of some forms are read as these forms. -/
theorem readAll_of_signs {ds : List Datum} {ts : List String} (h : ts.map Sign.ofToken = signsAll ds) :
    readAll ts = ds := by
  induction ds generalizing ts with
  | nil =>
    rw [signsAll, List.map_eq_nil_iff] at h
    rw [h, readAll_nil]
  | cons d ds ih =>
    rw [signsAll] at h
    obtain ⟨us, vs, rfl, hus, hvs⟩ := List.map_eq_append_iff.1 h
    rw [readAll_of_some (read?_of_signs hus vs), ih hvs]

end Datum

end FrameLisp
