/-
Cutting a text into tokens in one pass.

Before a text is cut at its blanks, the parentheses outside of its string literals get spaces around them and the
spaces inside give way to a mark. `spread` says this of the stretches between quotation marks; here the same is
done character by character, with one bit of state: whether the text so far ends inside of a literal.

Results:
- `spread_eq`: the pass gives what the stretches give.
- `spreadFrom_append`: what comes before a place counts for what follows only by the parity of its quotation
  marks.
- `scan_append`: when a text has an even number of quotation marks and a blank follows it, its tokens and those of
  what follows the blank are the tokens of the whole.
-/
import FrameLisp.Token

namespace FrameLisp.Token

open FrameLisp.Text

/-- spaces and marks as `spread` puts them, for a text that begins inside or outside of a literal -/
def spreadFrom (inside : Bool) : List Char → List Char
  | [] => []
  | c :: cs =>
    if c = '"' then '"' :: spreadFrom (!inside) cs
    else (if inside then hideSpaces [c] else spaceParens [c]) ++ spreadFrom inside cs

/-- whether a text that begins inside or outside of a literal ends inside of one -/
def insideAfter (inside : Bool) (cs : List Char) : Bool := inside ^^ decide (cs.count '"' % 2 = 1)

@[simp] theorem insideAfter_nil (inside : Bool) : insideAfter inside [] = inside := by
  simp [insideAfter]

theorem insideAfter_cons (inside : Bool) (c : Char) (cs : List Char) :
    insideAfter inside (c :: cs) = insideAfter (if c = '"' then !inside else inside) cs := by
  by_cases hc : c = '"'
  · have hparity : decide ((cs.count '"' + 1) % 2 = 1) = !decide (cs.count '"' % 2 = 1) := by
      rcases Nat.mod_two_eq_zero_or_one (cs.count '"') with h | h <;> simp [Nat.add_mod, h]
    subst hc
    rw [insideAfter, insideAfter, List.count_cons_self, hparity, if_pos rfl, Bool.not_xor, Bool.xor_not]
  · rw [insideAfter, insideAfter, List.count_cons_of_ne hc, if_neg hc]

/-- a text with an even number of quotation marks leaves the state as it was -/
theorem insideAfter_of_even {cs : List Char} (h : cs.count '"' % 2 = 0) (inside : Bool) :
    insideAfter inside cs = inside := by
  simp [insideAfter, h]

theorem spreadFrom_append (inside : Bool) (front back : List Char) :
    spreadFrom inside (front ++ back) = spreadFrom inside front ++ spreadFrom (insideAfter inside front) back := by
  induction front generalizing inside with
  | nil => simp [spreadFrom]
  | cons c front ih =>
    rw [insideAfter_cons, List.cons_append, spreadFrom, spreadFrom]
    by_cases hc : c = '"'
    · simp only [if_pos hc, ih, List.cons_append]
    · simp only [if_neg hc, ih, List.append_assoc]

/-! ## The stretches between quotation marks -/

theorem intercalate_append_head (sep a b : List Char) (rest : List (List Char)) :
    sep.intercalate ((a ++ b) :: rest) = a ++ sep.intercalate (b :: rest) := by
  cases rest <;> simp [List.intercalate_cons_cons]

/-- how the stretches are rewritten in turn, when the first one begins inside or outside of a literal -/
def rewriteStretches (inside : Bool) (stretches : List (List Char)) : List (List Char) :=
  if inside then alternate hideSpaces spaceParens stretches else alternate spaceParens hideSpaces stretches

theorem rewriteStretches_cons (inside : Bool) (cs : List Char) (stretches : List (List Char)) :
    rewriteStretches inside (cs :: stretches)
      = (if inside then hideSpaces cs else spaceParens cs) :: rewriteStretches (!inside) stretches := by
  cases inside <;> rfl

theorem splitOn_quote (cs : List Char) : ('"' :: cs).splitOn '"' = [] :: cs.splitOn '"' := by
  rw [List.splitOn, List.splitOnP_cons_eq_if_modifyHead, if_pos (beq_self_eq_true _), List.splitOn]

theorem splitOn_other {c : Char} (hc : c ≠ '"') (cs : List Char) :
    (c :: cs).splitOn '"' = (cs.splitOn '"').modifyHead (c :: ·) := by
  rw [List.splitOn, List.splitOnP_cons_eq_if_modifyHead, if_neg (by simpa using hc), List.splitOn]

theorem rewriteStretches_splitOn (inside : Bool) (cs : List Char) :
    ['"'].intercalate (rewriteStretches inside (cs.splitOn '"')) = spreadFrom inside cs := by
  induction cs generalizing inside with
  | nil => cases inside <;> rfl
  | cons c cs ih =>
    have hne : cs.splitOn '"' ≠ [] := List.splitOnP_ne_nil (· == '"') cs
    obtain ⟨first, others, hsplit⟩ := List.exists_cons_of_ne_nil hne
    rw [spreadFrom]
    by_cases hc : c = '"'
    · subst hc
      rw [if_pos rfl, ← ih, splitOn_quote, hsplit, rewriteStretches_cons, rewriteStretches_cons]
      cases inside <;> rfl
    · rw [if_neg hc, ← ih, splitOn_other hc, hsplit, List.modifyHead_cons, rewriteStretches_cons,
        rewriteStretches_cons, ← intercalate_append_head]
      cases inside
      · simp [spaceParens]
      · simp [hideSpaces]

theorem spread_eq (cs : List Char) : spread cs = spreadFrom false cs :=
  rewriteStretches_splitOn false cs

theorem scan_eq (source : String) :
    scan source = (words (spreadFrom false source.toList)).map fun word => String.ofList (showSpaces word) := by
  rw [scan, spread_eq]

/-! ## What a pass leaves alone -/

/-- outside of literals, only quotation marks and parentheses are more than themselves -/
theorem spreadFrom_of_plain {cs : List Char} (h : ∀ c ∈ cs, c ≠ '"' ∧ c ≠ '(' ∧ c ≠ ')') :
    spreadFrom false cs = cs := by
  induction cs with
  | nil => rfl
  | cons c cs ih =>
    obtain ⟨hquote, hopen, hclose⟩ := h c List.mem_cons_self
    have hc : spaceParens [c] = [c] := spaceParens_of_no_parens (by simpa using hopen.symm) (by simpa using hclose.symm)
    rw [spreadFrom, if_neg hquote, ih fun d hd => h d (List.mem_cons_of_mem _ hd)]
    simp [hc]

/-- inside of a literal, a text without quotation marks gets its spaces replaced -/
theorem spreadFrom_inside {cs : List Char} (h : '"' ∉ cs) : spreadFrom true cs = hideSpaces cs := by
  induction cs with
  | nil => rfl
  | cons c cs ih =>
    have hc : c ≠ '"' := fun hc => h (by simp [hc])
    rw [spreadFrom, if_neg hc, ih fun hmem => h (List.mem_cons_of_mem _ hmem), hideSpaces_cons]
    simp [hideSpaces]

/-- a blank is neither a quotation mark nor a parenthesis -/
theorem plain_of_isBlank {c : Char} (h : isBlank c = true) : c ≠ '"' ∧ c ≠ '(' ∧ c ≠ ')' := by
  refine ⟨?_, ?_, ?_⟩ <;> (rintro rfl; revert h; decide)

/-- there are no blanks in the mark for a space -/
theorem isBlank_of_mem_spaceMark {c : Char} (h : c ∈ spaceMark) : isBlank c = false := by
  have hmark : spaceMark.all (!isBlank ·) = true := by decide
  simpa using List.all_eq_true.1 hmark c h

theorem spreadFrom_blanks {gap : List Char} (h : ∀ c ∈ gap, isBlank c = true) : spreadFrom false gap = gap :=
  spreadFrom_of_plain fun c hc => plain_of_isBlank (h c hc)

theorem insideAfter_blanks {gap : List Char} (h : ∀ c ∈ gap, isBlank c = true) (inside : Bool) :
    insideAfter inside gap = inside := by
  have hcount : gap.count '"' = 0 := List.count_eq_zero.2 fun hmem => (plain_of_isBlank (h _ hmem)).1 rfl
  exact insideAfter_of_even (by rw [hcount]) inside

/-- blanks in front of a text are no part of its tokens -/
theorem words_spread_blanks_append {gap : List Char} (h : ∀ c ∈ gap, isBlank c = true) (cs : List Char) :
    words (spreadFrom false (gap ++ cs)) = words (spreadFrom false cs) := by
  rw [spreadFrom_append, spreadFrom_blanks h, insideAfter_blanks h, words_blanks_append h]

/-- a text with an even number of quotation marks, a blank, and another text: the tokens of the two texts -/
theorem scan_append {front gap : String} (hquotes : front.toList.count '"' % 2 = 0) (hne : gap ≠ "")
    (hgap : IsGap gap) (back : String) : scan (front ++ gap ++ back) = scan front ++ scan back := by
  obtain ⟨c, cs, hcons⟩ := List.exists_cons_of_ne_nil (fun h => hne (String.toList_eq_nil_iff.1 h))
  rw [IsGap, hcons] at hgap
  have hcs : ∀ d ∈ cs, isBlank d = true := fun d hd => hgap d (List.mem_cons_of_mem _ hd)
  have hwords : words (spreadFrom false (front ++ gap ++ back).toList)
      = words (spreadFrom false front.toList) ++ words (spreadFrom false back.toList) := by
    calc words (spreadFrom false (front ++ gap ++ back).toList)
        = words (spreadFrom false front.toList ++ c :: (cs ++ spreadFrom false back.toList)) := by
          rw [String.toList_append, String.toList_append, hcons, List.append_assoc, spreadFrom_append,
            insideAfter_of_even hquotes, spreadFrom_append, spreadFrom_blanks hgap, insideAfter_blanks hgap,
            List.cons_append]
      _ = words (spreadFrom false front.toList) ++ words (cs ++ spreadFrom false back.toList) :=
          words_append_blank (hgap c List.mem_cons_self) _ _
      _ = _ := by rw [words_blanks_append hcs]
  rw [scan_eq, scan_eq, scan_eq, hwords, List.map_append]

end FrameLisp.Token
