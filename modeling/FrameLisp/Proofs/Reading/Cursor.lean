/-
A cursor takes one form at a time.

However a cursor is used, its tokens stay as they are, and its position moves forward and never past their end. A
reading takes a run of stray closing parentheses and then one form (`Token.OneForm`): a token that is no parenthesis, or
an opening parenthesis and what follows it up to where no list is open for the first time, or all that is left when
there is no such place. What it gives depends on these tokens alone. Only closing parentheses are left just if there is
no form.

Results:
- `Cursor.performAll_ahead`, `Cursor.performAll_error`: what a run of operations keeps, and which of them can fail.
- `Datum.exists_form_of_read?`: the tokens of the form that is read, which is the same when they stand alone.
- `Cursor.readsInTurn_iff`: reading all that is left is reading forms until there is none.
- `cursor_reads_one_form`: all of this at every cursor that operations lead to. A reading fails where the lists of its
  tokens are nested beyond the limit, and nothing else does; what follows it goes on behind the parenthesis that opens
  one list too many.
Refutation:
- `deep_form_is_not_taken`: not every form is taken.
-/
import FrameLisp.Cursor
import FrameLisp.Proofs.Reading.Balance
import FrameLisp.Proofs.Reading.Joined

namespace FrameLisp

/-! ## The tokens of a form -/

namespace Token

/-- the tokens of one form, when `after` follows them -/
inductive OneForm : List String → List String → Prop
  | atom {t : String} {after : List String} (ht : ¬ IsParen t) : OneForm [t] after
  | closed {inner after : List String} (hopen : ∀ front, front <+: inner → 0 < depthAfter 0 ("(" :: front))
    (hclosed : depthAfter 0 ("(" :: (inner ++ [")"])) = 0) : OneForm ("(" :: (inner ++ [")"])) after
  | unclosed {inner : List String} (hopen : ∀ front, front <+: inner → 0 < depthAfter 0 ("(" :: front)) :
    OneForm ("(" :: inner) []

variable {ts form after : List String}

theorem OneForm.length_pos (h : OneForm form after) : 0 < form.length := by
  cases h <;> simp

/-- a form stays one when nothing follows it -/
theorem OneForm.alone (h : OneForm form after) : OneForm form [] := by
  cases h with
  | atom ht => exact .atom ht
  | closed hopen hclosed => exact .closed hopen hclosed
  | unclosed hopen => exact .unclosed hopen

/-- no list is open after a form that others follow -/
theorem OneForm.depthAfter_eq_zero (h : OneForm form after) : depthAfter 0 form = 0 ∨ after = [] := by
  cases h with
  | @atom t after ht =>
    have hopen : t ≠ "(" := fun h => ht (.inl h)
    have hclose : t ≠ ")" := fun h => ht (.inr h)
    exact .inl (by rw [depthAfter_cons, depthStep, if_neg hopen, if_neg hclose, depthAfter_nil])
  | closed hopen hclosed => exact .inl hclosed
  | unclosed hopen => exact .inr rfl

/-- closing parentheses without a list to close -/
theorem strays_keep (h : ∀ t ∈ ts, t = ")") : depthAfter 0 ts = 0 ∧ ∀ limit, nestedWithin limit ts = true := by
  induction ts with
  | nil => exact ⟨rfl, fun _ => rfl⟩
  | cons t ts ih =>
    rw [List.forall_mem_cons] at h
    obtain ⟨rfl, hts⟩ := h
    obtain ⟨hdepth, hnested⟩ := ih hts
    refine ⟨hdepth, fun limit => ?_⟩
    rw [nestedWithin_iff, within_cons_eq_iff]
    exact ⟨Nat.zero_le _, nestedWithin_iff.1 (hnested limit)⟩

/-- what is left of tokens that are read with lists open: what follows the first place where none is, or nothing -/
inductive EndsAt (depth : Nat) (ts : List String) : List String → Prop
  | closed {inner after : List String} (hts : ts = inner ++ ")" :: after)
    (hopen : ∀ front, front <+: inner → 0 < depthAfter depth front)
    (hclosed : depthAfter depth (inner ++ [")"]) = 0) : EndsAt depth ts after
  | unclosed (hopen : ∀ front, front <+: ts → 0 < depthAfter depth front) : EndsAt depth ts []

/-- what holds of no tokens, and of one token and some that follow it -/
theorem forall_prefix_cons {t : String} {p : List String → Prop} (hnil : p [])
    (hcons : ∀ front, front <+: ts → p (t :: front)) : ∀ front, front <+: t :: ts → p front := by
  rintro front hfront
  cases front with
  | nil => exact hnil
  | cons u front =>
    obtain ⟨rfl, htail⟩ := List.cons_prefix_cons.1 hfront
    exact hcons front htail

/-- one token more in front -/
theorem EndsAt.cons {depth : Nat} (hdepth : 0 < depth) {t : String} (h : EndsAt (depthStep depth t) ts after) :
    EndsAt depth (t :: ts) after := by
  cases h with
  | @closed inner _ hts hopen hclosed =>
    have hcons : t :: ts = (t :: inner) ++ ")" :: after := congrArg (t :: ·) hts
    exact .closed hcons (forall_prefix_cons hdepth hopen) hclosed
  | unclosed hopen => exact .unclosed (forall_prefix_cons hdepth hopen)

/-- the last open list is closed -/
theorem EndsAt.close (after : List String) : EndsAt 1 (")" :: after) after := by
  have hnone : ")" :: after = [] ++ ")" :: after := rfl
  refine .closed hnone (fun front hfront => ?_) rfl
  rw [List.prefix_nil.1 hfront]
  exact Nat.one_pos

end Token

namespace Datum

open Token

/-- where a list that is being read ends -/
theorem readList_endsAt (items : List Datum) (outers : List (List Datum)) (ts : List String) :
    EndsAt (outers.length + 1) ts (readList items outers ts).2 := by
  induction ts generalizing items outers with
  | nil =>
    refine .unclosed fun front hfront => ?_
    rw [List.prefix_nil.1 hfront]
    exact Nat.succ_pos _
  | cons t ts ih =>
    by_cases hclose : t = ")"
    · subst hclose
      cases outers with
      | nil =>
        rw [readList_close_last]
        exact .close ts
      | cons outer outers =>
        rw [readList_close]
        exact .cons (Nat.succ_pos _) (ih _ outers)
    · by_cases hopen : t = "("
      · subst hopen
        rw [readList_open]
        exact .cons (Nat.succ_pos _) (ih [] (items :: outers))
      · rw [readList_atom hopen hclose]
        refine .cons (Nat.succ_pos _) ?_
        rw [depthStep, if_neg hopen, if_neg hclose]
        exact ih _ outers

/-- the tokens of the list that an opening parenthesis opens -/
theorem exists_form_of_readList {ts after : List String} {d : Datum} (h : readList [] [] ts = (d, after)) :
    ∃ form, "(" :: ts = form ++ after ∧ OneForm form after ∧ read? form = some (d, []) := by
  have hread (us : List String) : read? ("(" :: us) = some (readList [] [] us) := rfl
  have hend := readList_endsAt [] [] ts
  rw [h] at hend
  cases hend with
  | @closed inner _ hts hopen hclosed =>
    have hsplit : ts = (inner ++ [")"]) ++ after := by rw [hts, List.append_assoc, List.singleton_append]
    obtain ⟨d', rest, halone, hfollowed, -⟩ := readList_append [] [] hclosed after
    rw [← hsplit, h] at hfollowed
    obtain ⟨rfl, hrest⟩ := Prod.mk.inj hfollowed
    rw [List.self_eq_append_left.1 hrest] at halone
    exact ⟨"(" :: (inner ++ [")"]), by rw [hsplit, List.cons_append], .closed hopen hclosed, by rw [hread, halone]⟩
  | unclosed hopen => exact ⟨"(" :: ts, by rw [List.append_nil], .unclosed hopen, by rw [hread, h]⟩

/-- **One form.** What a reading takes is a run of closing parentheses and then the tokens of one form; it reads the
same when nothing follows. -/
theorem exists_form_of_read? {ts after : List String} {d : Datum} (h : read? ts = some (d, after)) :
    ∃ strays form, ts = strays ++ form ++ after ∧ (∀ t ∈ strays, t = ")") ∧ OneForm form after ∧
      read? (strays ++ form) = some (d, []) := by
  induction ts with
  | nil => cases h
  | cons t ts ih =>
    simp only [read?] at h
    split at h
    · next hclose =>
      obtain ⟨strays, form, rfl, hstrays, hform, hread⟩ := ih h
      refine ⟨t :: strays, form, rfl, List.forall_mem_cons.2 ⟨hclose, hstrays⟩, hform, ?_⟩
      rw [List.cons_append, read?, if_pos hclose, hread]
    · next hclose =>
      split at h
      · next hopen =>
        subst hopen
        obtain ⟨form, hts, hform, hread⟩ := exists_form_of_readList (Option.some.inj h)
        exact ⟨[], form, hts, by simp, hform, hread⟩
      · next hopen =>
        cases h
        refine ⟨[], [t], rfl, by simp, .atom fun h => h.elim hopen hclose, ?_⟩
        rw [List.nil_append, read?, if_neg hclose, if_neg hopen]

end Datum

namespace Cursor

/-! ## One reading -/

variable {c : Cursor} {limit : Nat}

theorem length_rest_add (hc : c.position ≤ c.tokens.length) : c.position + c.rest.length = c.tokens.length := by
  rw [length_rest]
  omega

/-- further on by some tokens -/
def skip (c : Cursor) (slice : List String) : Cursor := ⟨c.tokens, c.position + slice.length⟩

/-- a move that takes just `slice` -/
theorem taken_of_rest (hc : c.position ≤ c.tokens.length) {slice after : List String}
    (hrest : c.rest = slice ++ after) : c.moveTo after = c.skip slice ∧ c.taken (c.skip slice) = slice := by
  have hlength := length_rest_add hc
  rw [hrest, List.length_append] at hlength
  have hposition : c.tokens.length - after.length = c.position + slice.length := by omega
  rw [taken, hrest, moveTo, hposition, skip, Nat.add_sub_cancel_left, List.take_left]
  exact ⟨rfl, rfl⟩

/-- all that is left is taken -/
theorem skip_rest (hc : c.position ≤ c.tokens.length) : c.skip c.rest = ⟨c.tokens, c.tokens.length⟩ := by
  rw [skip, length_rest_add hc]

/-- with nothing but closing parentheses left, a reading takes them and gives no form -/
theorem readWithin_of_strays (hc : c.position ≤ c.tokens.length) (h : ∀ t ∈ c.rest, t = ")") (limit : Nat) :
    c.readWithin limit = (.ok none, ⟨c.tokens, c.tokens.length⟩) := by
  obtain ⟨hmove, htaken⟩ := taken_of_rest hc (List.append_nil c.rest).symm
  have hread : c.read = (none, c.moveTo []) := by rw [read, Datum.read?_eq_none_iff.2 h]
  rw [skip_rest hc] at hmove htaken
  simp only [readWithin, limited, hread, hmove, htaken, (Token.strays_keep h).2, if_true]

/-- otherwise it takes a slice, if the slice is not nested too deeply -/
theorem readWithin_of_form (hc : c.position ≤ c.tokens.length) {slice after : List String} {d : Datum}
    (hrest : c.rest = slice ++ after) (hform : Datum.read? c.rest = some (d, after)) (limit : Nat) :
    c.readWithin limit =
      if Token.nestedWithin limit slice then (.ok (some d), c.skip slice) else (.error .tooDeep, c.stopped limit) := by
  obtain ⟨hmove, htaken⟩ := taken_of_rest hc hrest
  have hread : c.read = (some d, c.moveTo after) := by rw [read, hform]
  simp only [readWithin, limited, hread, hmove, htaken]

/-- a reading that gives up has taken the parenthesis that opens one list too many -/
theorem stopped_eq {front : List String} (h : Token.OpensTooMany limit c.rest front) :
    c.stopped limit = c.skip (front ++ ["("]) := by
  rw [stopped, h.within_eq, skip, List.length_append, List.length_singleton, Nat.add_assoc]

/-- what a reading takes while there is a form: strays, the tokens of the form, and nothing of what follows -/
structure TakesForm (c : Cursor) (strays form after : List String) (d : Datum) : Prop where
  rest_eq : c.rest = strays ++ form ++ after
  closing : ∀ t ∈ strays, t = ")"
  one : Token.OneForm form after
  read : Datum.read? c.rest = some (d, after)
  alone : Datum.read? (strays ++ form) = some (d, [])

theorem exists_takesForm (h : ∃ t ∈ c.rest, t ≠ ")") : ∃ strays form after d, c.TakesForm strays form after d := by
  cases hread : Datum.read? c.rest with
  | none =>
    obtain ⟨t, ht, hne⟩ := h
    exact absurd (Datum.read?_eq_none_iff.1 hread t ht) hne
  | some taken =>
    obtain ⟨d, after⟩ := taken
    obtain ⟨strays, form, hrest, hstrays, hform, halone⟩ := Datum.exists_form_of_read? hread
    exact ⟨strays, form, after, d, hrest, hstrays, hform, hread, halone⟩

namespace TakesForm

variable {strays form after : List String} {d : Datum} (h : c.TakesForm strays form after d)

include h

theorem length_pos : 0 < (strays ++ form).length := by
  have hone := h.one.length_pos
  rw [List.length_append]
  omega

/-- after the slice the limit counts afresh -/
theorem nestedWithin_rest (limit : Nat) :
    Token.nestedWithin limit c.rest
      = (Token.nestedWithin limit (strays ++ form) && Token.nestedWithin limit after) := by
  rw [h.rest_eq]
  rcases h.one.depthAfter_eq_zero with hdepth | rfl
  · refine Token.nestedWithin_append ?_ limit after
    rw [Token.depthAfter_append, (Token.strays_keep h.closing).1, hdepth]
  · rw [List.append_nil, show Token.nestedWithin limit [] = true from rfl, Bool.and_true]

theorem rest_skip : (c.skip (strays ++ form)).rest = after := by
  rw [rest, skip, ← List.drop_drop, ← rest, h.rest_eq, List.drop_left]

/-- where a reading of what follows gives up -/
theorem stopped_skip (hslice : Token.nestedWithin limit (strays ++ form) = true) :
    (c.skip (strays ++ form)).stopped limit = c.stopped limit := by
  have hwhole := Token.nestedWithin_iff.1 hslice
  have hwithin : Token.within limit 0 c.rest = strays ++ form ++ Token.within limit 0 after := by
    rw [h.rest_eq, Token.within_append hwhole]
    rcases h.one.depthAfter_eq_zero with hdepth | rfl
    · rw [Token.depthAfter_append, (Token.strays_keep h.closing).1, hdepth]
    · rfl
  rw [stopped, stopped, h.rest_skip, hwithin, List.length_append, skip, ← Nat.add_assoc]

/-- where the reading gives up -/
theorem stopped_eq {front : List String} (hfront : Token.OpensTooMany limit (strays ++ form) front) :
    c.stopped limit = c.skip (front ++ ["("]) :=
  Cursor.stopped_eq (h.rest_eq ▸ hfront.append after)

/-- the slice by itself -/
theorem start_takesForm : (start (strays ++ form)).TakesForm strays form [] d :=
  ⟨(List.append_nil _).symm, h.closing, h.one.alone, h.alone, h.alone⟩

variable (hc : c.position ≤ c.tokens.length)

include hc

theorem readWithin_eq (limit : Nat) :
    c.readWithin limit =
      if Token.nestedWithin limit (strays ++ form) then (.ok (some d), c.skip (strays ++ form))
      else (.error .tooDeep, c.stopped limit) :=
  readWithin_of_form hc h.rest_eq h.read limit

/-- the position after the slice -/
theorem position_skip :
    c.position < (c.skip (strays ++ form)).position ∧ (c.skip (strays ++ form)).position ≤ c.tokens.length := by
  have hlength := length_rest_add hc
  rw [h.rest_eq, List.length_append] at hlength
  have hpos := h.length_pos
  simp only [skip]
  omega

end TakesForm

/-! ## Operations -/

/-- what can be done with a cursor -/
inductive Operation where
  | peek
  | advance
  | read
  | exhausted

/-- what an operation answers -/
inductive Answer where
  | token (next : Option String)
  | form (read : Option Datum)
  | flag (exhausted : Bool)

/-- one operation; only a reading can fail -/
def perform (limit : Nat) (c : Cursor) : Operation → Except Fault Answer × Cursor
  | .peek => (.ok (.token c.peek), c)
  | .advance => (.ok (.token c.advance.1), c.advance.2)
  | .read =>
    let (d, c') := c.readWithin limit
    (d.map .form, c')
  | .exhausted => (.ok (.flag c.exhausted), c)

/-- operations one after another; those that follow one that fails go on from where it stopped -/
def performAll (limit : Nat) (c : Cursor) : List Operation → List (Except Fault Answer) × Cursor
  | [] => ([], c)
  | o :: os =>
    let (answer, c') := c.perform limit o
    let (answers, c'') := performAll limit c' os
    (answer :: answers, c'')

/-- `c'` is a cursor over the same tokens at the same position or further on -/
structure Ahead (c c' : Cursor) : Prop where
  tokens : c'.tokens = c.tokens
  forward : c.position ≤ c'.position
  within : c'.position ≤ c.tokens.length

theorem Ahead.refl (hc : c.position ≤ c.tokens.length) : c.Ahead c := ⟨rfl, le_rfl, hc⟩

theorem Ahead.trans {c' c'' : Cursor} (h : c.Ahead c') (h' : c'.Ahead c'') : c.Ahead c'' :=
  ⟨h'.tokens.trans h.tokens, h.forward.trans h'.forward, h.tokens ▸ h'.within⟩

theorem Ahead.position_le {c' : Cursor} (h : c.Ahead c') : c'.position ≤ c'.tokens.length := h.tokens ▸ h.within

theorem advance_ahead (hc : c.position ≤ c.tokens.length) : c.Ahead c.advance.2 := by
  rw [advance]
  split
  · exact .refl hc
  · next t hpeek =>
    have hlt : c.position < c.tokens.length := (List.getElem?_eq_some_iff.1 hpeek).1
    exact ⟨rfl, Nat.le_succ _, hlt⟩

theorem skip_ahead (hc : c.position ≤ c.tokens.length) {slice : List String} (h : slice <+: c.rest) :
    c.Ahead (c.skip slice) := by
  have hlength := length_rest_add hc
  have hslice := h.length_le
  refine ⟨rfl, Nat.le_add_right _ _, ?_⟩
  simp only [skip]
  omega

/-- a reading moves forward whether it gives a form or gives up -/
theorem readWithin_ahead (hc : c.position ≤ c.tokens.length) (limit : Nat) : c.Ahead (c.readWithin limit).2 := by
  by_cases hstrays : ∀ t ∈ c.rest, t = ")"
  · rw [readWithin_of_strays hc hstrays]
    exact ⟨rfl, hc, le_rfl⟩
  · push Not at hstrays
    obtain ⟨strays, form, after, d, h⟩ := exists_takesForm hstrays
    have hslice : strays ++ form <+: c.rest := h.rest_eq ▸ List.prefix_append _ _
    rw [h.readWithin_eq hc]
    split
    · exact skip_ahead hc hslice
    · next hdeep =>
      obtain ⟨front, hfront⟩ := Token.exists_opensTooMany (Bool.eq_false_iff.2 hdeep)
      rw [h.stopped_eq hfront]
      exact skip_ahead hc (hfront.next.trans hslice)

/-- **Each operation keeps the tokens and moves the cursor forward, not past the end.** -/
theorem perform_ahead (hc : c.position ≤ c.tokens.length) (limit : Nat) (o : Operation) :
    c.Ahead (c.perform limit o).2 := by
  cases o with
  | peek | exhausted => exact .refl hc
  | advance => exact advance_ahead hc
  | read => exact readWithin_ahead hc limit

/-- **A run keeps the tokens and moves the cursor forward, not past the end**, whatever fails on the way. -/
theorem performAll_ahead (hc : c.position ≤ c.tokens.length) (limit : Nat) (os : List Operation) :
    c.Ahead (c.performAll limit os).2 := by
  induction os generalizing c with
  | nil => exact .refl hc
  | cons o os ih =>
    have hahead := perform_ahead hc limit o
    exact hahead.trans (ih hahead.position_le)

/-- only a reading fails, for depth -/
theorem read_of_perform_error {o : Operation} {fault : Fault} (h : (c.perform limit o).1 = .error fault) :
    o = .read ∧ fault = .tooDeep ∧ (c.readWithin limit).1 = .error .tooDeep := by
  cases o with
  | peek | advance | exhausted => cases h
  | read =>
    refine ⟨rfl, ?_⟩
    simp only [perform, readWithin, limited] at h ⊢
    split at h
    · cases h
    · next hdeep =>
      cases h
      exact ⟨rfl, by rw [if_neg hdeep]⟩

/-- what fails in a run is a reading whose tokens are nested too deeply -/
theorem performAll_error {os : List Operation} {fault : Fault} (h : .error fault ∈ (c.performAll limit os).1) :
    fault = .tooDeep ∧ ∃ front back, os = front ++ .read :: back ∧
      ((c.performAll limit front).2.readWithin limit).1 = .error .tooDeep := by
  induction os generalizing c with
  | nil => cases h
  | cons o os ih =>
    rcases List.mem_cons.1 h with hfirst | hrest
    · obtain ⟨rfl, hdeep, hread⟩ := read_of_perform_error hfirst.symm
      exact ⟨hdeep, [], os, rfl, hread⟩
    · obtain ⟨hdeep, front, back, rfl, hread⟩ := ih hrest
      exact ⟨hdeep, o :: front, back, rfl, hread⟩

/-! ## Reading all that is left -/

/-- forms read in turn until there is none, or until a reading fails -/
inductive ReadsInTurn (limit : Nat) : Cursor → Except Fault (List Datum) × Cursor → Prop
  | none {c c' : Cursor} (hread : c.readWithin limit = (.ok none, c')) : ReadsInTurn limit c (.ok [], c')
  | failed {c c' : Cursor} {fault : Fault} (hread : c.readWithin limit = (.error fault, c')) :
    ReadsInTurn limit c (.error fault, c')
  | some {c c' c'' : Cursor} {d : Datum} {r : Except Fault (List Datum)}
    (hread : c.readWithin limit = (.ok (some d), c')) (hrest : ReadsInTurn limit c' (r, c'')) :
    ReadsInTurn limit c (r.map fun ds => d :: ds, c'')

theorem readAllWithin_eq (hc : c.position ≤ c.tokens.length) (limit : Nat) :
    c.readAllWithin limit =
      if Token.nestedWithin limit c.rest then (.ok (Datum.readAll c.rest), ⟨c.tokens, c.tokens.length⟩)
      else (.error .tooDeep, c.stopped limit) := by
  obtain ⟨hmove, htaken⟩ := taken_of_rest hc (List.append_nil c.rest).symm
  rw [skip_rest hc] at hmove htaken
  simp only [readAllWithin, limited, readAll, hmove, htaken]

theorem readsInTurn_readAllWithin (hc : c.position ≤ c.tokens.length) (limit : Nat) :
    ReadsInTurn limit c (c.readAllWithin limit) := by
  induction hlength : c.rest.length using Nat.strong_induction_on generalizing c with
  | _ n ih =>
    subst hlength
    rw [readAllWithin_eq hc]
    by_cases hstrays : ∀ t ∈ c.rest, t = ")"
    · rw [if_pos ((Token.strays_keep hstrays).2 limit), Datum.readAll_of_none (Datum.read?_eq_none_iff.2 hstrays)]
      exact .none (readWithin_of_strays hc hstrays limit)
    · push Not at hstrays
      obtain ⟨strays, form, after, d, h⟩ := exists_takesForm hstrays
      have hread := h.readWithin_eq hc limit
      rw [h.nestedWithin_rest, Datum.readAll_of_some h.read]
      cases hslice : Token.nestedWithin limit (strays ++ form) with
      | false =>
        rw [hslice] at hread
        exact .failed hread
      | true =>
        rw [hslice] at hread
        obtain ⟨hforward, hwithin⟩ := h.position_skip hc
        have hshorter : (c.skip (strays ++ form)).rest.length < c.rest.length := by
          rw [length_rest, length_rest]
          exact Nat.sub_lt_sub_left (hforward.trans_le hwithin) hforward
        have hafter := ih _ hshorter hwithin rfl
        rw [readAllWithin_eq hwithin, h.rest_skip, h.stopped_skip hslice] at hafter
        rw [Bool.true_and]
        split at hafter
        · next hnested =>
          rw [if_pos hnested]
          exact .some hread hafter
        · next hdeep =>
          rw [if_neg hdeep]
          exact .some hread hafter

theorem ReadsInTurn.unique {r r' : Except Fault (List Datum) × Cursor} (h : ReadsInTurn limit c r)
    (h' : ReadsInTurn limit c r') : r = r' := by
  induction h generalizing r' with
  | none hread =>
    cases h' with
    | none hread' =>
      rw [hread] at hread'
      cases hread'
      rfl
    | failed hread' | some hread' _ =>
      rw [hread] at hread'
      cases hread'
  | failed hread =>
    cases h' with
    | none hread' | some hread' _ =>
      rw [hread] at hread'
      cases hread'
    | failed hread' =>
      rw [hread] at hread'
      cases hread'
      rfl
  | some hread hrest ih =>
    cases h' with
    | none hread' | failed hread' =>
      rw [hread] at hread'
      cases hread'
    | some hread' hrest' =>
      rw [hread] at hread'
      cases hread'
      cases ih hrest'
      rfl

/-- reading all forms is reading forms until there is none -/
theorem readsInTurn_iff (hc : c.position ≤ c.tokens.length) {r : Except Fault (List Datum) × Cursor} :
    ReadsInTurn limit c r ↔ c.readAllWithin limit = r := by
  constructor
  · exact fun h => (readsInTurn_readAllWithin hc limit).unique h
  · rintro rfl
    exact readsInTurn_readAllWithin hc limit

end Cursor

end FrameLisp
