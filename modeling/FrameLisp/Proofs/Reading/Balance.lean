/-
The reader balances parentheses and loses nothing.

Tokens are balanced by leaving out each closing parenthesis that has no list open and by closing the lists that are
still open at the end (`Token.balance`). The forms that are read from tokens, written out again, are just the balanced
tokens, with each token that is no parenthesis as its atom. While a list is read, what is written out of it and of the
lists around it so far is `Datum.openSigns`.

Results:
- `Datum.signs_readList`: what is written out so far and what is left of the balanced tokens make the written form.
- `Datum.signs_readAll`: the forms of tokens are written out as the balanced tokens.
- `reader_balances_tokens`: so each token that is no parenthesis is one leaf, in order, each opening parenthesis opens
  one list, and on balanced tokens reading and writing out are inverse; the reader takes them if no more lists are open
  at a time than its limit lets it.
Refutation:
- `unlimited_nesting_is_not_read`: without that bound the reader need not take the tokens at all.
-/
import FrameLisp.Cursor
import FrameLisp.Program
import FrameLisp.Proofs.Reading.Writing

namespace FrameLisp

namespace Token

/-! ## Balanced tokens -/

/-- the tokens without the stray closing parentheses, when `depth` lists are open before -/
def matched (depth : Nat) : List String → List String
  | [] => []
  | t :: ts => if t = ")" ∧ depth = 0 then matched 0 ts else t :: matched (depthStep depth t) ts

/-- the tokens without the stray ones, and a closing parenthesis for each list that they leave open -/
def balance (depth : Nat) (tokens : List String) : List String :=
  matched depth tokens ++ List.replicate (depthAfter depth tokens) ")"

theorem balance_nil (depth : Nat) : balance depth [] = List.replicate depth ")" := rfl

theorem balance_stray (ts : List String) : balance 0 (")" :: ts) = balance 0 ts := rfl

theorem balance_close (depth : Nat) (ts : List String) : balance (depth + 1) (")" :: ts) = ")" :: balance depth ts :=
  rfl

theorem balance_open (depth : Nat) (ts : List String) : balance depth ("(" :: ts) = "(" :: balance (depth + 1) ts := rfl

theorem balance_atom {t : String} (ht : ¬ IsParen t) (depth : Nat) (ts : List String) :
    balance depth (t :: ts) = t :: balance depth ts := by
  have hopen : t ≠ "(" := fun h => ht (.inl h)
  have hclose : t ≠ ")" := fun h => ht (.inr h)
  have hstep : depthStep depth t = depth := by rw [depthStep, if_neg hopen, if_neg hclose]
  rw [balance, matched, if_neg fun h => hclose h.1, depthAfter_cons, hstep, List.cons_append, balance]

/-- what holds of tokens with so many lists open before them, if it goes over to a token and what follows it -/
@[elab_as_elim]
theorem nesting_induct {motive : Nat → List String → Prop} (nil : ∀ depth, motive depth [])
    (stray : ∀ ts, motive 0 ts → motive 0 (")" :: ts))
    (close : ∀ depth ts, motive depth ts → motive (depth + 1) (")" :: ts))
    (opening : ∀ depth ts, motive (depth + 1) ts → motive depth ("(" :: ts))
    (atom : ∀ depth t ts, ¬ IsParen t → motive depth ts → motive depth (t :: ts)) (depth : Nat) (ts : List String) :
    motive depth ts := by
  induction ts generalizing depth with
  | nil => exact nil depth
  | cons t ts ih =>
    by_cases hopen : t = "("
    · exact hopen ▸ opening depth ts (ih _)
    · by_cases hclose : t = ")"
      · subst hclose
        cases depth with
        | zero => exact stray ts (ih 0)
        | succ depth => exact close depth ts (ih depth)
      · exact atom depth t ts (fun h => h.elim hopen hclose) (ih depth)

/-- without strays there is nothing to leave out -/
theorem matched_eq_self {depth index : Nat} {ts : List String} (h : strays depth index ts = []) :
    matched depth ts = ts := by
  induction ts generalizing depth index with
  | nil => rfl
  | cons t ts ih =>
    rw [strays] at h
    split_ifs at h with hstray
    rw [matched, if_neg hstray, ih h]

/-- balanced tokens stay as they are -/
theorem Balanced.balance_eq {ts : List String} (h : Balanced ts) : balance 0 ts = ts := by
  rw [balance, matched_eq_self (h.strays 0 0), h.depth, List.replicate_zero, List.append_nil]

/-- closing parentheses for lists that are open -/
theorem closing_nested (around depth index : Nat) :
    depthAfter (around + depth) (List.replicate depth ")") = around ∧
      strays (around + depth) index (List.replicate depth ")") = [] := by
  induction depth generalizing index with
  | zero => exact ⟨rfl, rfl⟩
  | succ depth ih => exact ⟨(ih 0).1, (ih (index + 1)).2⟩

theorem balance_nested (depth : Nat) (ts : List String) (around index : Nat) :
    depthAfter (around + depth) (balance depth ts) = around ∧
      strays (around + depth) index (balance depth ts) = [] := by
  induction depth, ts using nesting_induct generalizing index with
  | nil depth => exact closing_nested around depth index
  | stray ts ih => exact ih index
  | close depth ts ih => exact ⟨(ih 0).1, (ih (index + 1)).2⟩
  | opening depth ts ih => exact ⟨(ih 0).1, (ih (index + 1)).2⟩
  | atom depth t ts ht ih =>
    have hopen : t ≠ "(" := fun h => ht (.inl h)
    have hclose : t ≠ ")" := fun h => ht (.inr h)
    have hstep : depthStep (around + depth) t = around + depth := by rw [depthStep, if_neg hopen, if_neg hclose]
    rw [balance_atom ht, depthAfter_cons, strays, if_neg fun h => hclose h.1, hstep]
    exact ih (index + 1)

theorem balanced_balance (ts : List String) : Balanced (balance 0 ts) :=
  ⟨fun depth => (balance_nested 0 ts depth 0).1, fun depth index => (balance_nested 0 ts depth index).2⟩

/-- balancing leaves out and adds nothing but closing parentheses -/
theorem filter_balance {p : String → Bool} (hp : p ")" = false) (depth : Nat) (ts : List String) :
    (balance depth ts).filter p = ts.filter p := by
  induction depth, ts using nesting_induct with
  | nil depth => simp [balance_nil, hp]
  | stray ts ih => rw [balance_stray, ih, List.filter_cons, if_neg (by simp [hp])]
  | close depth ts ih => rw [balance_close, List.filter_cons, List.filter_cons, ih]
  | opening depth ts ih => rw [balance_open, List.filter_cons, List.filter_cons, ih]
  | atom depth t ts ht ih => rw [balance_atom ht, List.filter_cons, List.filter_cons, ih]

end Token

namespace Datum

open Token

/-! ## What is read, written out again -/

/-- what is written out of the open lists so far, the outermost first -/
def openSigns (items : List Datum) : List (List Datum) → List Sign
  | [] => .opening :: signsAll items.reverse
  | outer :: outers => openSigns outer outers ++ .opening :: signsAll items.reverse

/-- one more item of the innermost list -/
theorem openSigns_item (d : Datum) (items : List Datum) (outers : List (List Datum)) :
    openSigns (d :: items) outers = openSigns items outers ++ d.signs := by
  have hitems : signsAll (d :: items).reverse = signsAll items.reverse ++ d.signs := by
    rw [List.reverse_cons, signsAll_append, signsAll, signsAll, List.append_nil]
  cases outers with
  | nil => rw [openSigns, hitems, openSigns, List.cons_append]
  | cons outer outers => rw [openSigns, hitems, openSigns, List.append_assoc, List.cons_append]

/-- the innermost list closed -/
theorem openSigns_close (items outer : List Datum) (outers : List (List Datum)) :
    openSigns (.list items.reverse :: outer) outers = openSigns items (outer :: outers) ++ [.closing] := by
  rw [openSigns_item, signs, openSigns, List.append_assoc, List.cons_append]

theorem signs_closeAll (items : List Datum) (outers : List (List Datum)) :
    (closeAll items outers).signs = openSigns items outers ++ List.replicate (outers.length + 1) .closing := by
  induction outers generalizing items with
  | nil => rfl
  | cons outer outers ih =>
    rw [closeAll, ih, openSigns_close, List.append_assoc, List.singleton_append, ← List.replicate_succ,
      List.length_cons]

/-- the signs of balanced tokens -/
def balancedSigns (depth : Nat) (ts : List String) : List Sign := (balance depth ts).map Sign.ofToken

/-- **A list is written out as it was read.** What was written out of the open lists and what is left of the balanced
tokens make the outermost list, once it is closed, and what is left then. -/
theorem signs_readList (depth : Nat) (ts : List String) (items : List Datum) (outers : List (List Datum))
    (hdepth : depth = outers.length + 1) :
    (readList items outers ts).1.signs ++ balancedSigns 0 (readList items outers ts).2
      = openSigns items outers ++ balancedSigns depth ts := by
  induction depth, ts using nesting_induct generalizing items outers with
  | nil depth =>
    have hclosing : balancedSigns depth [] = List.replicate (outers.length + 1) .closing := by
      rw [balancedSigns, balance_nil, List.map_replicate, hdepth]
      rfl
    rw [hclosing, ← signs_closeAll]
    exact List.append_nil _
  | stray ts ih => cases hdepth
  | close depth ts ih =>
    cases outers with
    | nil =>
      obtain rfl : depth = 0 := by simpa using hdepth
      rw [readList_close_last, signs, openSigns, balancedSigns, balancedSigns, balance_close, List.map_cons]
      simp
    | cons outer outers =>
      rw [readList_close, ih _ outers (by simpa using hdepth), openSigns_close, balancedSigns, balancedSigns,
        balance_close, List.map_cons, List.append_assoc]
      rfl
  | opening depth ts ih =>
    rw [readList_open, ih [] (items :: outers) (by simp [hdepth]), balancedSigns, balancedSigns, balance_open,
      List.map_cons, openSigns, List.append_assoc]
    rfl
  | atom depth t ts ht ih =>
    rw [readList_atom (fun h => ht (.inl h)) (fun h => ht (.inr h)), ih _ outers hdepth, openSigns_item, balancedSigns,
      balancedSigns, balance_atom ht, List.map_cons, Sign.ofToken_atom ht, List.append_assoc]
    rfl

/-- a form is written out as it was read -/
theorem signs_read? {ts rest : List String} {d : Datum} (h : read? ts = some (d, rest)) :
    balancedSigns 0 ts = d.signs ++ balancedSigns 0 rest := by
  induction ts with
  | nil => cases h
  | cons t ts ih =>
    by_cases hclose : t = ")"
    · subst hclose
      exact ih h
    · by_cases hopen : t = "("
      · subst hopen
        obtain ⟨rfl, rfl⟩ : (readList [] [] ts).1 = d ∧ (readList [] [] ts).2 = rest := by
          rw [read?, if_neg (by decide), if_pos rfl] at h
          simp [Option.some.inj h]
        exact (signs_readList 1 ts [] [] rfl).symm
      · rw [read?, if_neg hclose, if_neg hopen] at h
        cases h
        have ht : ¬ IsParen t := fun h => h.elim hopen hclose
        rw [balancedSigns, balance_atom ht, List.map_cons, Sign.ofToken_atom ht]
        rfl

theorem signs_readAll (ts : List String) : signsAll (readAll ts) = balancedSigns 0 ts := by
  induction ts using reading_induct with
  | nil => rw [readAll_nil]; rfl
  | stray ts ih => rw [readAll_stray, ih]; rfl
  | form ts d rest hsome ih => rw [readAll_of_some hsome, signsAll, ih, signs_read? hsome]

/-- the leaves are the atoms of the other tokens, in order -/
theorem leavesAll_readAll (ts : List String) :
    leavesAll (readAll ts) = (ts.filter fun t => ¬ IsParen t).map fun t => .atom (.ofToken t) := by
  have hleaf (us : List String) :
      (us.map Sign.ofToken).filterMap Sign.leaf?
        = (us.filter fun t => ¬ IsParen t).map fun t => .atom (.ofToken t) := by
    induction us with
    | nil => rfl
    | cons t us ih =>
      by_cases ht : IsParen t
      · rw [List.filter_cons, if_neg (by simpa using ht), ← ih]
        rcases ht with rfl | rfl <;> rfl
      · rw [List.filter_cons, if_pos (by simpa using ht), List.map_cons, List.map_cons, ← ih, Sign.ofToken_atom ht]
        rfl
  rw [leavesAll_eq, signs_readAll, balancedSigns, hleaf, filter_balance (by decide)]

/-- each opening parenthesis opens a list -/
theorem listsAll_readAll (ts : List String) : listsAll (readAll ts) = ts.count "(" := by
  have hopening (t : String) : Sign.isOpening (Sign.ofToken t) = (t == "(") := by
    by_cases ht : IsParen t
    · rcases ht with rfl | rfl <;> rfl
    · rw [Sign.ofToken_atom ht, beq_eq_false_iff_ne.2 fun h => ht (.inl h)]
      rfl
  have hcount (us : List String) : us.count "(" = (us.filter (· == "(")).length := List.countP_eq_length_filter
  rw [listsAll_eq, signs_readAll, balancedSigns, List.countP_map, hcount ts, ← filter_balance (by decide) 0 ts,
    ← hcount]
  exact List.countP_congr fun t _ => by simp [hopening]

end Datum

/-! ## The reader -/

namespace Cursor

/-- the reader takes all tokens or, if their lists are nested too deeply, fails -/
theorem readAllWithin_start (limit : Nat) (tokens : List String) :
    (start tokens).readAllWithin limit =
      if Token.nestedWithin limit tokens then (.ok (Datum.readAll tokens), ⟨tokens, tokens.length⟩)
      else (.error .tooDeep, (start tokens).stopped limit) := by
  have htaken : (start tokens).taken ((start tokens).moveTo []) = tokens := by simp [taken, moveTo, rest, start]
  have hmoved : (start tokens).moveTo [] = ⟨tokens, tokens.length⟩ := rfl
  simp only [readAllWithin, limited, readAll, hmoved ▸ htaken, hmoved]
  rfl

end Cursor

/-- a text is read as its forms or, if their lists are nested too deeply, not at all -/
theorem Program.outcome_read (limits : Limits) (source : String) (w : World) :
    (read limits source w).1 =
      if Token.nestedWithin limits.reading (Token.scan source) then .ok (Datum.ofSource source)
      else .error .tooDeep := by
  rw [read]
  split_ifs with hnested
  · rw [Effect.bind_ok (Effect.noteAll_apply _ w)]
    rfl
  · rw [Effect.bind_ok (Effect.noteAll_apply _ w)]
    rfl

/-- **The reader balances parentheses and loses nothing.** The forms of any tokens, written out again, are the balanced
tokens with an atom for each one that is no parenthesis. So the leaves of the forms are the atoms of these tokens, in
order, and there are as many lists as opening parentheses; on balanced tokens writing out what was read gives the tokens
back, and what is read from tokens that forms are written out with are the forms. The reader takes all tokens, unless
they have more lists open at a time than its limit lets it. -/
theorem reader_balances_tokens (limit : Nat) (tokens : List String) :
    let forms := Datum.readAll tokens
    Datum.signsAll forms = (Token.balance 0 tokens).map Sign.ofToken ∧ Token.Balanced (Token.balance 0 tokens) ∧
      Datum.leavesAll forms = (tokens.filter fun t => ¬ Token.IsParen t).map (fun t => .atom (.ofToken t)) ∧
      Datum.listsAll forms = tokens.count "(" ∧
      (Token.Balanced tokens → Datum.signsAll forms = tokens.map Sign.ofToken) ∧
      (∀ ds, Datum.signsAll ds = tokens.map Sign.ofToken → forms = ds) ∧
      (Cursor.start tokens).readAllWithin limit =
        if Token.nestedWithin limit tokens then (.ok forms, ⟨tokens, tokens.length⟩)
        else (.error .tooDeep, (Cursor.start tokens).stopped limit) := by
  intro forms
  have hsigns : Datum.signsAll forms = (Token.balance 0 tokens).map Sign.ofToken := Datum.signs_readAll tokens
  refine ⟨hsigns, Token.balanced_balance tokens, Datum.leavesAll_readAll tokens, Datum.listsAll_readAll tokens,
    fun hbalanced => ?_, fun ds hds => ?_, Cursor.readAllWithin_start limit tokens⟩
  · rw [hsigns, hbalanced.balance_eq]
  · exact Datum.readAll_of_signs hds.symm

/-- stray parentheses in front of, between and behind lists, and lists that are left open -/
theorem stray_and_open_lists_are_read :
    let tokens := [")", "(", "a", "(", ")", ")", ")", "1", ")", "(", "\"x\"", "("]
    let balanced := ["(", "a", "(", ")", ")", "1", "(", "\"x\"", "(", ")", ")"]
    Token.Balanced balanced ∧ Datum.signsAll (Datum.readAll tokens) = balanced.map Sign.ofToken ∧
      Datum.signsAll (Datum.readAll balanced) = balanced.map Sign.ofToken ∧
      Datum.readAll balanced = Datum.readAll tokens ∧
      (Cursor.start tokens).readAllWithin Limits.standard.reading = (.ok (Datum.readAll tokens), ⟨tokens, 12⟩) := by
  intro tokens balanced
  obtain ⟨hsigns, hbalanced, -, -, -, -, hread⟩ := reader_balances_tokens Limits.standard.reading tokens
  obtain ⟨-, -, -, -, hwritten, hinverse, -⟩ := reader_balances_tokens Limits.standard.reading balanced
  have hbalance : Token.balance 0 tokens = balanced := by decide
  have hnested : Token.nestedWithin Limits.standard.reading tokens = true := by decide
  rw [hbalance] at hsigns hbalanced
  rw [if_pos hnested] at hread
  exact ⟨hbalanced, hsigns, hwritten hbalanced, hinverse _ hsigns, hread⟩

/-! ## Nesting beyond the limit -/

/-- what a reader takes whole leaves no more lists open than its limit -/
theorem Token.depthAfter_le_of_within {limit depth : Nat} {ts : List String} (hdepth : depth ≤ limit)
    (h : within limit depth ts = ts) : depthAfter depth ts ≤ limit := by
  induction ts generalizing depth with
  | nil => exact hdepth
  | cons t ts ih =>
    obtain ⟨hstep, hrest⟩ := within_cons_eq_iff.1 h
    exact ih hstep hrest

theorem Token.depthAfter_replicate_open (depth n : Nat) : depthAfter depth (List.replicate n "(") = depth + n := by
  induction n generalizing depth with
  | zero => rfl
  | succ n ih =>
    rw [List.replicate_succ, depthAfter_cons, ih, depthStep, if_pos rfl]
    omega

/-- opening parentheses and nothing else, one more than the limit -/
theorem Token.not_nestedWithin_replicate_open (limit : ℕ) :
    nestedWithin limit (List.replicate (limit + 1) "(") = false := by
  rw [Bool.eq_false_iff]
  intro hwithin
  have hdepth := depthAfter_le_of_within (Nat.zero_le _) (nestedWithin_iff.1 hwithin)
  rw [depthAfter_replicate_open] at hdepth
  omega

/-- it is not so that the reader takes all tokens -/
theorem unlimited_nesting_is_not_read :
    ¬ ∀ tokens, ∃ forms c, (Cursor.start tokens).readAllWithin Limits.standard.reading = (.ok forms, c) ∧
      Datum.signsAll forms = (Token.balance 0 tokens).map Sign.ofToken := by
  intro h
  obtain ⟨forms, c, hread, -⟩ := h (List.replicate (Limits.standard.reading + 1) "(")
  rw [Cursor.readAllWithin_start, Token.not_nestedWithin_replicate_open] at hread
  cases hread

end FrameLisp
