/-
Tokens of a program text.

Quotation marks divide a text into stretches that are outside and inside of string literals in turn. Outside,
each parenthesis is a token by itself; inside, a space is an ordinary character. Everything else that is blank
separates tokens, and what stands between blanks and parentheses is a token. So a token never is empty
(`scan_nonempty`), and a text without quotation marks and parentheses has its words for tokens (`scan_plain`).

To keep the spaces of literals through the cut at blanks they are replaced by `spaceMark` for its time; a text
that holds that mark itself gets a space in its place.
-/
import FrameLisp.Text.Blank

namespace FrameLisp.Token

open FrameLisp.Text

/-- stands for a space of a string literal while the text is cut at blanks -/
def spaceMark : List Char := ['\x00', 's', 'p', 'a', 'c', 'e', '\x00']

/-- puts a space on both sides of every parenthesis -/
def spaceParens (cs : List Char) : List Char :=
  cs.flatMap fun c => if c == '(' || c == ')' then [' ', c, ' '] else [c]

/-- replaces every space by the mark -/
def hideSpaces (cs : List Char) : List Char :=
  cs.flatMap fun c => if c == ' ' then spaceMark else [c]

/-- replaces every mark by a space, from the left -/
def showSpaces : List Char → List Char
  | '\x00' :: 's' :: 'p' :: 'a' :: 'c' :: 'e' :: '\x00' :: cs => ' ' :: showSpaces cs
  | c :: cs => c :: showSpaces cs
  | [] => []

/-- applies `f` to the first stretch, `g` to the second, and so on in turn -/
def alternate {α β : Type} (f g : α → β) : List α → List β
  | [] => []
  | a :: as => f a :: alternate g f as

/-- the text whose words are the tokens, but for the marks in them -/
def spread (cs : List Char) : List Char :=
  ['"'].intercalate (alternate spaceParens hideSpaces (cs.splitOn '"'))

/-- the tokens of a text -/
def scan (source : String) : List String :=
  (words (spread source.toList)).map fun word => String.ofList (showSpaces word)

theorem showSpaces_eq_nil {cs : List Char} : showSpaces cs = [] ↔ cs = [] := by
  fun_cases showSpaces cs <;> simp

theorem scan_nonempty (source : String) : ∀ t ∈ scan source, t ≠ "" := by
  intro t ht
  obtain ⟨word, hword, rfl⟩ := List.mem_map.1 ht
  have hne := words_nonempty _ word hword
  intro h
  have : showSpaces word = [] := by simpa using congrArg String.toList h
  exact hne (showSpaces_eq_nil.1 this)

/-- a mark starts with its outer character -/
theorem showSpaces_cons {c : Char} (hc : c ≠ '\x00') (cs : List Char) : showSpaces (c :: cs) = c :: showSpaces cs := by
  rw [showSpaces]
  intro rest hrest
  exact absurd hrest hc

theorem showSpaces_of_no_nul {cs : List Char} (h : '\x00' ∉ cs) : showSpaces cs = cs := by
  induction cs with
  | nil => rfl
  | cons c cs ih =>
    have hc : c ≠ '\x00' := fun hc => h (by simp [hc])
    rw [showSpaces_cons hc, ih fun hmem => h (List.mem_cons_of_mem _ hmem)]

theorem spaceParens_cons (c : Char) (cs : List Char) :
    spaceParens (c :: cs) = (if c == '(' || c == ')' then [' ', c, ' '] else [c]) ++ spaceParens cs := by
  simp [spaceParens]

theorem hideSpaces_cons (c : Char) (cs : List Char) :
    hideSpaces (c :: cs) = (if c == ' ' then spaceMark else [c]) ++ hideSpaces cs := by
  simp [hideSpaces]

/-- showing takes hiding back, where the outer character of the mark is not in the text -/
theorem showSpaces_hideSpaces_append {cs : List Char} (h : '\x00' ∉ cs) (rest : List Char) :
    showSpaces (hideSpaces cs ++ rest) = cs ++ showSpaces rest := by
  induction cs with
  | nil => rfl
  | cons c cs ih =>
    have hc : c ≠ '\x00' := fun hc => h (by simp [hc])
    have hrest := ih fun hmem => h (List.mem_cons_of_mem _ hmem)
    by_cases hspace : c = ' '
    · rw [hideSpaces_cons, hspace, if_pos (beq_self_eq_true _), List.append_assoc, List.cons_append, ← hrest]
      rfl
    · rw [hideSpaces_cons, if_neg (by simpa using hspace), List.singleton_append, List.cons_append,
        showSpaces_cons hc, hrest, List.cons_append]

theorem spaceParens_of_no_parens {cs : List Char} (h1 : '(' ∉ cs) (h2 : ')' ∉ cs) : spaceParens cs = cs := by
  induction cs with
  | nil => rfl
  | cons c cs ih =>
    have hc1 : c ≠ '(' := fun hc => h1 (by simp [hc])
    have hc2 : c ≠ ')' := fun hc => h2 (by simp [hc])
    have hrest := ih (fun hm => h1 (List.mem_cons_of_mem _ hm)) (fun hm => h2 (List.mem_cons_of_mem _ hm))
    simp [spaceParens_cons, hc1, hc2, hrest]

/-- without quotation marks, parentheses and the mark's outer character, the tokens are the words -/
theorem scan_plain {source : String} (h : ∀ c ∈ source.toList, c ≠ '"' ∧ c ≠ '(' ∧ c ≠ ')' ∧ c ≠ '\x00') :
    scan source = (words source.toList).map String.ofList := by
  have hspread : spread source.toList = source.toList := by
    rw [spread, List.splitOn_eq_singleton fun hm => (h _ hm).1 rfl, alternate, alternate, List.intercalate_singleton]
    exact spaceParens_of_no_parens (fun hm => (h _ hm).2.1 rfl) (fun hm => (h _ hm).2.2.1 rfl)
  rw [scan, hspread]
  refine List.map_congr_left fun word hword => ?_
  have hsub : ∀ c ∈ word, c ∈ source.toList := mem_of_mem_words hword
  rw [showSpaces_of_no_nul fun hm => (h _ (hsub _ hm)).2.2.2 rfl]

end FrameLisp.Token
