/-
Texts laid out freely.

A layout writes tokens one after another with blanks in front of each of them and at the end. The blanks are
free, and there may be none, except that two leaves never touch; parentheses need no blanks around them. A leaf
is a word, which has no blanks, parentheses or quotation marks in it, or a literal, which has a text between
quotation marks.

Results:
- `words_spread_leaf`: a leaf in front of a text, where a blank follows or nothing, is the first token.
- `Layout.scan_text`: the tokens of a laid out text are the tokens that were laid out, whatever the blanks.
-/
import Mathlib.Data.List.Chain
import FrameLisp.Proofs.Token.Spread

namespace FrameLisp.Token

open FrameLisp.Text

/-! ## Leaves -/

/-- the texts that are a token as they are, and no parenthesis -/
def IsWord (t : String) : Prop :=
  t ≠ "" ∧ ∀ c ∈ t.toList, isBlank c = false ∧ c ≠ '(' ∧ c ≠ ')' ∧ c ≠ '"' ∧ c ≠ '\x00'

/-- the texts that are a token when they stand between quotation marks; spaces are their only blanks -/
def Quotable (s : String) : Prop := ∀ c ∈ s.toList, c ≠ '"' ∧ c ≠ '\x00' ∧ (isBlank c = true → c = ' ')

/-- the tokens that are no parentheses: words and literals -/
inductive IsLeaf : String → Prop
  | word {t : String} : IsWord t → IsLeaf t
  | literal {s : String} : Quotable s → IsLeaf ("\"" ++ s ++ "\"")

def IsParen (t : String) : Prop := t = "(" ∨ t = ")"

instance (t : String) : Decidable (IsWord t) :=
  @instDecidableAnd _ _ inferInstance (List.decidableBAll _ t.toList)

instance (s : String) : Decidable (Quotable s) := List.decidableBAll _ s.toList

instance (t : String) : Decidable (IsParen t) := inferInstanceAs (Decidable (_ ∨ _))

theorem toList_literal (s : String) : ("\"" ++ s ++ "\"").toList = '"' :: (s.toList ++ ['"']) := by
  simp

theorem Quotable.no_quote {s : String} (h : Quotable s) : '"' ∉ s.toList := fun hmem => (h _ hmem).1 rfl

theorem Quotable.no_nul {s : String} (h : Quotable s) : '\x00' ∉ s.toList := fun hmem => (h _ hmem).2.1 rfl

/-- marks hold no blanks -/
theorem hideSpaces_no_blank {cs : List Char} (h : ∀ c ∈ cs, isBlank c = true → c = ' ') :
    ∀ c ∈ hideSpaces cs, isBlank c = false := by
  intro c hc
  obtain ⟨d, hd, hc⟩ := List.mem_flatMap.1 hc
  by_cases hspace : d = ' '
  · rw [if_pos (by simpa using hspace)] at hc
    exact isBlank_of_mem_spaceMark hc
  · rw [if_neg (by simpa using hspace), List.mem_singleton] at hc
    rw [hc]
    exact Bool.eq_false_iff.2 fun hblank => hspace (h d hd hblank)

theorem IsWord.spread_eq {t : String} (h : IsWord t) : spreadFrom false t.toList = t.toList :=
  spreadFrom_of_plain fun c hc => ⟨(h.2 c hc).2.2.2.1, (h.2 c hc).2.1, (h.2 c hc).2.2.1⟩

theorem spread_literal {s : String} (h : '"' ∉ s.toList) :
    spreadFrom false ("\"" ++ s ++ "\"").toList = '"' :: (hideSpaces s.toList ++ ['"']) := by
  have hcount : s.toList.count '"' % 2 = 0 := by rw [List.count_eq_zero.2 h]
  rw [toList_literal, spreadFrom, if_pos rfl, Bool.not_false, spreadFrom_append, insideAfter_of_even hcount,
    spreadFrom_inside h]
  rfl

namespace IsLeaf

variable {t : String}

theorem even_quotes (h : IsLeaf t) : t.toList.count '"' % 2 = 0 := by
  cases h with
  | word h => rw [List.count_eq_zero.2 fun hmem => (h.2 _ hmem).2.2.2.1 rfl]
  | @literal s h =>
    rw [toList_literal, List.count_cons_self, List.count_append, List.count_eq_zero.2 h.no_quote]
    rfl

theorem spread_ne_nil (h : IsLeaf t) : spreadFrom false t.toList ≠ [] := by
  cases h with
  | word h => rw [h.spread_eq]; exact fun heq => h.1 (String.toList_eq_nil_iff.1 heq)
  | literal h => rw [spread_literal h.no_quote]; exact List.cons_ne_nil _ _

theorem spread_no_blank (h : IsLeaf t) : ∀ c ∈ spreadFrom false t.toList, isBlank c = false := by
  have hquote : isBlank '"' = false := by decide
  cases h with
  | word h => rw [h.spread_eq]; exact fun c hc => (h.2 c hc).1
  | literal h =>
    rw [spread_literal h.no_quote, List.forall_mem_cons]
    refine ⟨hquote, fun c hc => ?_⟩
    rcases List.mem_append.1 hc with hc | hc
    · exact hideSpaces_no_blank (fun d hd => (h d hd).2.2) c hc
    · rwa [List.mem_singleton.1 hc]

theorem showSpaces_spread (h : IsLeaf t) : showSpaces (spreadFrom false t.toList) = t.toList := by
  cases h with
  | word h => rw [h.spread_eq, showSpaces_of_no_nul fun hmem => (h.2 _ hmem).2.2.2.2 rfl]
  | literal h =>
    rw [spread_literal h.no_quote, showSpaces_cons (by decide), showSpaces_hideSpaces_append h.no_nul, toList_literal]
    rfl

theorem not_paren (h : IsLeaf t) : ¬ IsParen t := by
  rintro (rfl | rfl)
  · exact absurd h.showSpaces_spread (by decide)
  · exact absurd h.showSpaces_spread (by decide)

end IsLeaf

/-! ## Layouts -/

/-- a token with the blanks in front of it -/
structure Piece where
  gap : String
  token : String

/-- whether two tokens one after another are kept apart: by a parenthesis among them or by blanks -/
def Piece.Apart (p q : Piece) : Prop := IsParen p.token ∨ IsParen q.token ∨ q.gap ≠ ""

instance : DecidableRel Piece.Apart := fun p q =>
  inferInstanceAs (Decidable (IsParen p.token ∨ IsParen q.token ∨ q.gap ≠ ""))

/-- tokens with the blanks in front of each of them, and the blanks at the end -/
structure Layout where
  pieces : List Piece
  trail : String
  gaps : ∀ p ∈ pieces, IsGap p.gap
  trail_gap : IsGap trail
  apart : pieces.IsChain Piece.Apart

namespace Layout

def tokens (l : Layout) : List String := l.pieces.map (·.token)

/-- the characters of pieces one after another, and of what follows them -/
def chars (pieces : List Piece) (trail : String) : List Char :=
  (pieces.flatMap fun p => p.gap.toList ++ p.token.toList) ++ trail.toList

def text (l : Layout) : String := String.ofList (chars l.pieces l.trail)

theorem chars_cons (p : Piece) (pieces : List Piece) (trail : String) :
    chars (p :: pieces) trail = p.gap.toList ++ (p.token.toList ++ chars pieces trail) := by
  simp [chars]

/-- blanks around a parenthesis -/
theorem spread_paren {t : String} (h : IsParen t) (cs : List Char) :
    spreadFrom false (t.toList ++ cs) = ' ' :: (t.toList ++ ' ' :: spreadFrom false cs) := by
  rcases h with rfl | rfl <;> rfl

theorem words_spread_paren {t : String} (h : IsParen t) (cs : List Char) :
    words (spreadFrom false (t.toList ++ cs)) = t.toList :: words (spreadFrom false cs) := by
  have hspace : isBlank ' ' = true := by decide
  have hword : words t.toList = [t.toList] := by rcases h with rfl | rfl <;> decide
  rw [spread_paren h, words_cons_blank hspace, words_append_blank hspace, hword]
  rfl

/-- after a leaf there is nothing, or a blank once parentheses have spaces around them -/
theorem blank_after_leaf {p : Piece} {pieces : List Piece} {trail : String} (hleaf : ¬ IsParen p.token)
    (hgaps : ∀ q ∈ pieces, IsGap q.gap) (htrail : IsGap trail) (hapart : (p :: pieces).IsChain Piece.Apart) :
    ∀ c ∈ (spreadFrom false (chars pieces trail)).head?, isBlank c = true := by
  intro c hc
  cases pieces with
  | nil =>
    rw [chars, List.flatMap_nil, List.nil_append, spreadFrom_blanks htrail] at hc
    exact htrail c (List.mem_of_mem_head? hc)
  | cons q pieces =>
    have hq : IsGap q.gap := hgaps q List.mem_cons_self
    rw [chars_cons, spreadFrom_append, spreadFrom_blanks hq, insideAfter_blanks hq, List.head?_append] at hc
    cases hgap : q.gap.toList with
    | cons d gap =>
      rw [hgap] at hc
      obtain rfl : d = c := by simpa using hc
      exact hq d (by rw [hgap]; exact List.mem_cons_self)
    | nil =>
      have hparen : IsParen q.token := by
        rcases (List.isChain_cons_cons.1 hapart).1 with h | h | h
        · exact absurd h hleaf
        · exact h
        · exact absurd (String.toList_eq_nil_iff.1 hgap) h
      rw [hgap, spread_paren hparen] at hc
      obtain rfl : ' ' = c := by simpa using hc
      decide

theorem words_spread_leaf {t : String} (h : IsLeaf t) {cs : List Char}
    (hnext : ∀ c ∈ (spreadFrom false cs).head?, isBlank c = true) :
    words (spreadFrom false (t.toList ++ cs)) = spreadFrom false t.toList :: words (spreadFrom false cs) := by
  rw [spreadFrom_append, insideAfter_of_even h.even_quotes]
  exact words_word_append h.spread_ne_nil h.spread_no_blank hnext

theorem scan_pieces {pieces : List Piece} {trail : String} (hgaps : ∀ p ∈ pieces, IsGap p.gap) (htrail : IsGap trail)
    (hapart : pieces.IsChain Piece.Apart) (htokens : ∀ p ∈ pieces, IsParen p.token ∨ IsLeaf p.token) :
    (words (spreadFrom false (chars pieces trail))).map (fun word => String.ofList (showSpaces word))
      = pieces.map (·.token) := by
  induction pieces with
  | nil =>
    have hnone : words trail.toList = [] := by
      rw [← List.append_nil trail.toList, words_blanks_append htrail]
      rfl
    rw [chars, List.flatMap_nil, List.nil_append, spreadFrom_blanks htrail, hnone]
    rfl
  | cons p pieces ih =>
    have hrest : ∀ q ∈ pieces, IsGap q.gap := fun q hq => hgaps q (List.mem_cons_of_mem _ hq)
    have htail := ih hrest hapart.tail fun q hq => htokens q (List.mem_cons_of_mem _ hq)
    rw [chars_cons, words_spread_blanks_append (hgaps p List.mem_cons_self), List.map_cons]
    rcases htokens p List.mem_cons_self with hparen | hleaf
    · have hshow : showSpaces p.token.toList = p.token.toList := by
        rcases hparen with h | h <;> rw [h] <;> decide
      rw [words_spread_paren hparen, List.map_cons, hshow, htail, String.ofList_toList]
    · have hnext := blank_after_leaf hleaf.not_paren hrest htrail hapart
      rw [words_spread_leaf hleaf hnext, List.map_cons, hleaf.showSpaces_spread, htail, String.ofList_toList]

/-- the tokens of a laid out text are those that were laid out -/
theorem scan_text (l : Layout) (h : ∀ t ∈ l.tokens, IsParen t ∨ IsLeaf t) : scan l.text = l.tokens := by
  rw [scan_eq, text, String.toList_ofList]
  exact scan_pieces l.gaps l.trail_gap l.apart fun p hp => h _ (List.mem_map_of_mem hp)

end Layout

end FrameLisp.Token
