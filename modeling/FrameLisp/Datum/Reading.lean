/-
Forms from tokens.

A form is an atom or a list of forms between parentheses. Reading never fails: a closing parenthesis with no
list open is passed over, and lists that are still open when the tokens end are closed there. `read?` takes one
form off a sequence of tokens and leaves the rest, which is shorter (`length_of_read?`); `readAll` takes forms
until none is left.

While a list is read its items so far are kept in reverse, and so are those of the lists around it, innermost
first.
-/
import FrameLisp.Datum
import FrameLisp.Token

namespace FrameLisp.Datum

/-- closes all open lists: each is the last item of the one around it -/
def closeAll (items : List Datum) : List (List Datum) → Datum
  | [] => .list items.reverse
  | outer :: outers => closeAll (.list items.reverse :: outer) outers

/-- reads on until the outermost open list is closed; `items` are those of the innermost one -/
def readList (items : List Datum) (outers : List (List Datum)) : List String → Datum × List String
  | [] => (closeAll items outers, [])
  | t :: ts =>
    if t = ")" then
      match outers with
      | [] => (.list items.reverse, ts)
      | outer :: outers => readList (.list items.reverse :: outer) outers ts
    else if t = "(" then readList [] (items :: outers) ts
    else readList (.atom (.ofToken t) :: items) outers ts

/-- the first form of the tokens and what follows it, if there is a form -/
def read? : List String → Option (Datum × List String)
  | [] => none
  | t :: ts =>
    if t = ")" then read? ts
    else if t = "(" then some (readList [] [] ts)
    else some (.atom (.ofToken t), ts)

theorem readList_open (items : List Datum) (outers : List (List Datum)) (ts : List String) :
    readList items outers ("(" :: ts) = readList [] (items :: outers) ts := by
  simp [readList]

/-- a closing parenthesis makes the innermost list an item of the one around it -/
theorem readList_close (items outer : List Datum) (outers : List (List Datum)) (ts : List String) :
    readList items (outer :: outers) (")" :: ts) = readList (.list items.reverse :: outer) outers ts := by
  simp [readList]

theorem readList_close_last (items : List Datum) (ts : List String) :
    readList items [] (")" :: ts) = (.list items.reverse, ts) := by
  simp [readList]

theorem readList_atom {t : String} (hopen : t ≠ "(") (hclose : t ≠ ")") (items : List Datum)
    (outers : List (List Datum)) (ts : List String) :
    readList items outers (t :: ts) = readList (.atom (.ofToken t) :: items) outers ts := by
  simp [readList, hopen, hclose]

theorem length_readList (items : List Datum) (outers : List (List Datum)) (ts : List String) :
    (readList items outers ts).2.length ≤ ts.length := by
  induction ts generalizing items outers with
  | nil => simp [readList]
  | cons t ts ih =>
    simp only [readList, List.length_cons]
    split
    · split
      · exact Nat.le_succ _
      · exact Nat.le_succ_of_le (ih _ _)
    · split <;> exact Nat.le_succ_of_le (ih _ _)

theorem length_of_read? {ts rest : List String} {d : Datum} (h : read? ts = some (d, rest)) :
    rest.length < ts.length := by
  induction ts with
  | nil => cases h
  | cons t ts ih =>
    simp only [read?] at h
    split at h
    · exact Nat.lt_succ_of_lt (ih h)
    · split at h
      · have hlen := length_readList [] [] ts
        rw [Option.some.inj h] at hlen
        exact Nat.lt_succ_of_le hlen
      · cases h
        exact Nat.lt_succ_self _

/-- all forms of the tokens -/
def readAll (ts : List String) : List Datum :=
  match _h : read? ts with
  | none => []
  | some (d, rest) => d :: readAll rest
termination_by ts.length
decreasing_by exact length_of_read? _h

/-- the forms of a program text -/
def ofSource (source : String) : List Datum := readAll (Token.scan source)

theorem readAll_of_none {ts : List String} (h : read? ts = none) : readAll ts = [] := by
  rw [readAll]
  split
  · rfl
  · simp_all

theorem readAll_of_some {ts rest : List String} {d : Datum} (h : read? ts = some (d, rest)) :
    readAll ts = d :: readAll rest := by
  rw [readAll]
  split
  · simp_all
  · simp_all

@[simp] theorem readAll_nil : readAll [] = [] := readAll_of_none rfl

/-- stray closing parentheses in front change nothing -/
@[simp] theorem readAll_stray (ts : List String) : readAll (")" :: ts) = readAll ts := by
  cases h : read? ts with
  | none => rw [readAll_of_none h, readAll_of_none (by simpa [read?] using h)]
  | some r => rw [readAll_of_some (d := r.1) h, readAll_of_some (d := r.1) (by simpa [read?] using h)]

/-- nothing is read exactly when all tokens are closing parentheses -/
theorem read?_eq_none_iff {ts : List String} : read? ts = none ↔ ∀ t ∈ ts, t = ")" := by
  induction ts with
  | nil => simp [read?]
  | cons t ts ih =>
    simp only [read?, List.forall_mem_cons]
    split
    · simp_all
    · split <;> simp_all

/-- what holds of tokens, if it goes over from what follows a stray closing parenthesis, or a form, to the whole -/
@[elab_as_elim]
theorem reading_induct {motive : List String → Prop} (nil : motive []) (stray : ∀ ts, motive ts → motive (")" :: ts))
    (form : ∀ ts d rest, read? ts = some (d, rest) → motive rest → motive ts) (ts : List String) : motive ts := by
  induction ts using readAll.induct with
  | case1 ts hnone =>
    have hstray := read?_eq_none_iff.1 hnone
    clear hnone
    induction ts with
    | nil => exact nil
    | cons t ts ih =>
      rw [hstray t List.mem_cons_self]
      exact stray ts (ih fun u hu => hstray u (List.mem_cons_of_mem _ hu))
  | case2 ts d rest hsome ih => exact form ts d rest hsome ih

end FrameLisp.Datum
