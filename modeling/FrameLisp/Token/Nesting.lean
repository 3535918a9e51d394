/-
Nesting of lists in a sequence of tokens.

An opening parenthesis opens a list inside the ones that are open, a closing one closes the innermost. A closing
parenthesis with no list open is stray: it changes nothing. `strays` says which tokens are, `depthAfter` how
many lists are open at the end, `within` how much of a sequence a reader can take that holds at most so many
lists open at a time, and `nestedWithin` whether it can take the whole.
-/

namespace FrameLisp.Token

/-- how many lists are open after one more token -/
def depthStep (depth : Nat) (token : String) : Nat :=
  if token = "(" then depth + 1 else if token = ")" then depth - 1 else depth

/-- how many lists are open after the tokens, when `depth` were before -/
def depthAfter (depth : Nat) (tokens : List String) : Nat := tokens.foldl depthStep depth

/-- the places of the stray closing parentheses, when `depth` lists are open and the first token has the place
`index` -/
def strays (depth index : Nat) : List String → List Nat
  | [] => []
  | t :: ts =>
    if t = ")" ∧ depth = 0 then index :: strays 0 (index + 1) ts
    else strays (depthStep depth t) (index + 1) ts

/-- the tokens before the first one that opens more than `limit` lists, when `depth` are open -/
def within (limit depth : Nat) : List String → List String
  | [] => []
  | t :: ts =>
    let inner := depthStep depth t
    if limit < inner then [] else t :: within limit inner ts

/-- whether the tokens never have more than `limit` lists open -/
def nestedWithin (limit : Nat) (tokens : List String) : Bool := (within limit 0 tokens).length == tokens.length

@[simp] theorem depthAfter_nil (depth : Nat) : depthAfter depth [] = depth := rfl

@[simp] theorem depthAfter_cons (depth : Nat) (t : String) (ts : List String) :
    depthAfter depth (t :: ts) = depthAfter (depthStep depth t) ts := rfl

theorem depthAfter_append (depth : Nat) (front back : List String) :
    depthAfter depth (front ++ back) = depthAfter (depthAfter depth front) back := by
  simp [depthAfter]

theorem within_isPrefix (limit depth : Nat) (tokens : List String) : within limit depth tokens <+: tokens := by
  induction tokens generalizing depth with
  | nil => exact List.prefix_refl _
  | cons t ts ih =>
    simp only [within]
    split
    · exact List.nil_prefix
    · exact (List.prefix_cons_inj t).2 (ih _)

theorem within_cons_eq_iff {limit depth : Nat} {t : String} {ts : List String} :
    within limit depth (t :: ts) = t :: ts
      ↔ depthStep depth t ≤ limit ∧ within limit (depthStep depth t) ts = ts := by
  by_cases h : limit < depthStep depth t
  · simp [within, h, Nat.not_le_of_lt h]
  · simp [within, h, Nat.le_of_not_lt h]

/-- a sequence is taken whole when its two parts are, the second from where the first leaves off -/
theorem within_append_eq_iff {limit depth : Nat} {front back : List String} :
    within limit depth (front ++ back) = front ++ back
      ↔ within limit depth front = front ∧ within limit (depthAfter depth front) back = back := by
  induction front generalizing depth with
  | nil => simp [within]
  | cons t ts ih => rw [List.cons_append, within_cons_eq_iff, within_cons_eq_iff, ih, depthAfter_cons, and_assoc]

/-- what is taken behind a front that is taken whole -/
theorem within_append {limit depth : Nat} {front : List String} (h : within limit depth front = front)
    (back : List String) :
    within limit depth (front ++ back) = front ++ within limit (depthAfter depth front) back := by
  induction front generalizing depth with
  | nil => rfl
  | cons t ts ih =>
    obtain ⟨hstep, hts⟩ := within_cons_eq_iff.1 h
    rw [List.cons_append, within, if_neg (Nat.not_lt.2 hstep), ih hts, depthAfter_cons, List.cons_append]

theorem strays_append (depth index : Nat) (front back : List String) :
    strays depth index (front ++ back)
      = strays depth index front ++ strays (depthAfter depth front) (index + front.length) back := by
  induction front generalizing depth index with
  | nil => rfl
  | cons t ts ih =>
    have hindex : index + 1 + ts.length = index + (t :: ts).length := by simp only [List.length_cons]; omega
    rw [List.cons_append, strays, strays, depthAfter_cons, ← hindex]
    by_cases h : t = ")" ∧ depth = 0
    · obtain ⟨rfl, rfl⟩ := h
      have hstep : depthStep 0 ")" = 0 := by decide
      rw [if_pos ⟨rfl, rfl⟩, if_pos ⟨rfl, rfl⟩, hstep, ih, List.cons_append]
    · rw [if_neg h, if_neg h, ih]

/-- without strays in a sequence there are none in what a reader takes of it -/
theorem strays_within {limit depth index : Nat} {tokens : List String} (h : strays depth index tokens = []) :
    strays depth index (within limit depth tokens) = [] := by
  obtain ⟨rest, hrest⟩ := within_isPrefix limit depth tokens
  rw [← hrest, strays_append] at h
  exact (List.append_eq_nil_iff.1 h).1

/-- a sequence that leaves as many lists open as it finds and has no strays, wherever it stands -/
structure Balanced (tokens : List String) : Prop where
  depth : ∀ depth, depthAfter depth tokens = depth
  strays : ∀ depth index, strays depth index tokens = []

theorem Balanced.nil : Balanced [] := ⟨fun _ => rfl, fun _ _ => rfl⟩

theorem Balanced.single {t : String} (hopen : t ≠ "(") (hclose : t ≠ ")") : Balanced [t] where
  depth depth := by simp [depthStep, hopen, hclose]
  strays depth index := by simp [Token.strays, hclose]

theorem Balanced.append {front back : List String} (hfront : Balanced front) (hback : Balanced back) :
    Balanced (front ++ back) where
  depth depth := by rw [depthAfter_append, hfront.depth, hback.depth]
  strays depth index := by rw [strays_append, hfront.strays, hback.strays, List.append_nil]

/-- parentheses around a balanced sequence match each other -/
theorem Balanced.enclose {tokens : List String} (h : Balanced tokens) : Balanced ("(" :: (tokens ++ [")"])) where
  depth depth := by
    rw [depthAfter_cons, depthAfter_append, h.depth]
    simp [depthStep]
  strays depth index := by
    have hopen : depthStep depth "(" = depth + 1 := by simp [depthStep]
    rw [Token.strays, if_neg (by simp), hopen, strays_append, h.strays, h.depth]
    simp [Token.strays]

/-- a sequence stays within the limit when no token of it is left out -/
theorem nestedWithin_iff {limit : Nat} {tokens : List String} :
    nestedWithin limit tokens = true ↔ within limit 0 tokens = tokens := by
  rw [nestedWithin, beq_iff_eq]
  exact ⟨fun h => (within_isPrefix limit 0 tokens).eq_of_length h, fun h => by rw [h]⟩

/-- after a sequence that leaves no list open, the limit counts afresh -/
theorem nestedWithin_append {front : List String} (h : depthAfter 0 front = 0) (limit : Nat) (back : List String) :
    nestedWithin limit (front ++ back) = (nestedWithin limit front && nestedWithin limit back) := by
  rw [Bool.eq_iff_iff, Bool.and_eq_true, nestedWithin_iff, nestedWithin_iff, nestedWithin_iff, within_append_eq_iff, h]

/-- the token after `front` opens one list too many -/
structure OpensTooMany (limit : Nat) (tokens front : List String) : Prop where
  next : front ++ ["("] <+: tokens
  whole : within limit 0 front = front
  full : depthAfter 0 front = limit

/-- a sequence that is not taken whole opens one list too many somewhere -/
theorem exists_full {limit depth : Nat} {tokens : List String} (hdepth : depth ≤ limit)
    (h : within limit depth tokens ≠ tokens) :
    ∃ front, front ++ ["("] <+: tokens ∧ within limit depth front = front ∧ depthAfter depth front = limit := by
  induction tokens generalizing depth with
  | nil => exact absurd rfl h
  | cons t ts ih =>
    by_cases hstep : depthStep depth t ≤ limit
    · have hts : within limit (depthStep depth t) ts ≠ ts := fun hts => h (within_cons_eq_iff.2 ⟨hstep, hts⟩)
      obtain ⟨front, hnext, hwhole, hfull⟩ := ih hstep hts
      exact ⟨t :: front, (List.prefix_cons_inj t).2 hnext, within_cons_eq_iff.2 ⟨hstep, hwhole⟩, hfull⟩
    · rw [depthStep] at hstep
      split at hstep
      · next hopen =>
        have hfull : depth = limit := by omega
        exact ⟨[], by simp [hopen], rfl, hfull⟩
      · split at hstep <;> omega

theorem exists_opensTooMany {limit : Nat} {tokens : List String} (h : nestedWithin limit tokens = false) :
    ∃ front, OpensTooMany limit tokens front := by
  rw [Bool.eq_false_iff, Ne, nestedWithin_iff] at h
  obtain ⟨front, hnext, hwhole, hfull⟩ := exists_full (Nat.zero_le _) h
  exact ⟨front, hnext, hwhole, hfull⟩

namespace OpensTooMany

variable {limit : Nat} {tokens front : List String}

theorem append (h : OpensTooMany limit tokens front) (back : List String) :
    OpensTooMany limit (tokens ++ back) front :=
  ⟨h.next.trans (List.prefix_append _ _), h.whole, h.full⟩

/-- what is in front of the parenthesis is all that is taken -/
theorem within_eq (h : OpensTooMany limit tokens front) : within limit 0 tokens = front := by
  obtain ⟨back, rfl⟩ := h.next
  have hopen : depthStep limit "(" = limit + 1 := by simp [depthStep]
  rw [List.append_assoc, within_append h.whole, h.full, List.singleton_append, within, hopen,
    if_pos (Nat.lt_succ_self limit), List.append_nil]

end OpensTooMany

end FrameLisp.Token
