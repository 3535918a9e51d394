/-
Tokens from one pass over a text.

A scanner takes the characters of a text one after another and knows two things: the token under way and whether a
literal is open. Blanks end a token, but inside of a literal a space belongs to it; parentheses end a token and are
tokens, but inside of a literal they belong to it, too; a quotation mark belongs to the token and opens or closes the
literal. An empty token is none.

`scan` cuts a whole text in several steps, with a mark for each space of a literal in the meantime. A piece of the text
that is made ready so is a `StandIn` for the token under way.

Results:
- `Scanner.run_append`: a text may be taken in parts.
- `Scanner.run_sublist`: the tokens have characters of the text, in order.
- `StandIn.step`: one character keeps the piece a stand-in, and both sides give the same tokens for it.
- `StandIn.run`: so the scanner gives the tokens of whatever follows.
- `scan_eq_run`: the tokens of a text are what the scanner gives, if the outer character of the mark is not in it.
-/
import Mathlib.Tactic.SplitIfs
import FrameLisp.Proofs.Token.Spread

namespace FrameLisp.Token

open FrameLisp.Text

/-! ## The scanner -/

/-- what a scanner knows between two characters -/
structure Scanner where
  current : List Char
  inside : Bool

namespace Scanner

/-- before the first character -/
def start : Scanner := ⟨[], false⟩

/-- the token under way, unless it is empty -/
def ended (s : Scanner) : List String := if s.current = [] then [] else [String.ofList s.current]

/-- the token under way goes on with a character -/
def push (s : Scanner) (c : Char) : Scanner := { s with current := s.current ++ [c] }

/-- a new token is under way -/
def cut (s : Scanner) : Scanner := { s with current := [] }

/-- the tokens that are complete with a character, and what is known behind it -/
def step (s : Scanner) (c : Char) : List String × Scanner :=
  if c = '"' then ([], { s.push c with inside := !s.inside })
  else if s.inside then
    if c ≠ ' ' ∧ isBlank c then (s.ended, s.cut) else ([], s.push c)
  else if c = '(' ∨ c = ')' then (s.ended ++ [String.ofList [c]], s.cut)
  else if isBlank c then (s.ended, s.cut)
  else ([], s.push c)

/-- the tokens that are complete with some characters, and what is known behind them -/
def advance (s : Scanner) : List Char → List String × Scanner
  | [] => ([], s)
  | c :: cs =>
    let (ready, next) := s.step c
    let (tokens, last) := next.advance cs
    (ready ++ tokens, last)

/-- the tokens of the characters to come, with the one that is under way at their end -/
def run (s : Scanner) (cs : List Char) : List String := (s.advance cs).1 ++ (s.advance cs).2.ended

theorem run_nil (s : Scanner) : s.run [] = s.ended := rfl

theorem run_cons (s : Scanner) (c : Char) (cs : List Char) : s.run (c :: cs) = (s.step c).1 ++ (s.step c).2.run cs :=
  List.append_assoc ..

variable (s : Scanner) {c : Char}

theorem step_quote : s.step '"' = ([], { s.push '"' with inside := !s.inside }) := by
  rw [step, if_pos rfl]

theorem step_inside_blank (hinside : s.inside = true) (hc : isBlank c = true) (hspace : c ≠ ' ') :
    s.step c = (s.ended, s.cut) := by
  rw [step, if_neg (plain_of_isBlank hc).1, if_pos hinside, if_pos ⟨hspace, hc⟩]

theorem step_inside_other (hinside : s.inside = true) (hquote : c ≠ '"') (hc : isBlank c = true → c = ' ') :
    s.step c = ([], s.push c) := by
  rw [step, if_neg hquote, if_pos hinside, if_neg fun h => h.1 (hc h.2)]

theorem step_paren (houtside : s.inside = false) (hc : c = '(' ∨ c = ')') :
    s.step c = (s.ended ++ [String.ofList [c]], s.cut) := by
  have hquote : c ≠ '"' := by rcases hc with rfl | rfl <;> decide
  rw [step, if_neg hquote, if_neg (by simp [houtside]), if_pos hc]

theorem step_outside_blank (houtside : s.inside = false) (hc : isBlank c = true) : s.step c = (s.ended, s.cut) := by
  obtain ⟨hquote, hopen, hclose⟩ := plain_of_isBlank hc
  rw [step, if_neg hquote, if_neg (by simp [houtside]), if_neg (by simp [hopen, hclose]), if_pos hc]

theorem step_outside_other (houtside : s.inside = false) (hquote : c ≠ '"') (hparen : ¬ (c = '(' ∨ c = ')'))
    (hc : isBlank c = false) : s.step c = ([], s.push c) := by
  rw [step, if_neg hquote, if_neg (by simp [houtside]), if_neg hparen, if_neg (by simp [hc])]

/-- a character goes to the token under way, or it ends that token and is a token by itself at most -/
theorem step_cases (c : Char) :
    (∃ inside, s.step c = ([], ⟨s.current ++ [c], inside⟩)) ∨
      ∃ more, (more = [] ∨ more = [String.ofList [c]]) ∧ s.step c = (s.ended ++ more, s.cut) := by
  unfold step
  split_ifs
  · exact .inl ⟨_, rfl⟩
  · exact .inr ⟨[], .inl rfl, by rw [List.append_nil]⟩
  · exact .inl ⟨_, rfl⟩
  · exact .inr ⟨_, .inr rfl, rfl⟩
  · exact .inr ⟨[], .inl rfl, by rw [List.append_nil]⟩
  · exact .inl ⟨_, rfl⟩

/-! ## Going over a text -/

theorem advance_append (front back : List Char) :
    (s.advance (front ++ back)).2 = ((s.advance front).2.advance back).2 := by
  induction front generalizing s with
  | nil => rfl
  | cons c front ih => exact ih (s.step c).2

theorem run_append (front back : List Char) :
    s.run (front ++ back) = (s.advance front).1 ++ (s.advance front).2.run back := by
  induction front generalizing s with
  | nil => rfl
  | cons c front ih =>
    rw [List.cons_append, run_cons, ih, ← List.append_assoc]
    rfl

/-- whether a literal is open is seen from the number of quotation marks -/
theorem inside_advance (cs : List Char) : (s.advance cs).2.inside = insideAfter s.inside cs := by
  induction cs generalizing s with
  | nil => rw [insideAfter_nil]; rfl
  | cons c cs ih =>
    have hstep : (s.step c).2.inside = if c = '"' then !s.inside else s.inside := by
      unfold step
      split_ifs <;> rfl
    rw [insideAfter_cons, ← hstep]
    exact ih (s.step c).2

theorem flatMap_ended : s.ended.flatMap String.toList = s.current := by
  unfold ended
  split_ifs with hcurrent
  · rw [hcurrent, List.flatMap_nil]
  · rw [List.flatMap_singleton, String.toList_ofList]

theorem step_sublist (c : Char) :
    ((s.step c).1.flatMap String.toList ++ (s.step c).2.current).Sublist (s.current ++ [c]) := by
  rcases s.step_cases c with ⟨inside, hstep⟩ | ⟨more, hmore, hstep⟩
  · rw [hstep]
    exact List.Sublist.refl _
  · have hchars : (more.flatMap String.toList).Sublist [c] := by
      rcases hmore with rfl | rfl <;> simp
    rw [hstep, List.flatMap_append, flatMap_ended, cut, List.append_nil]
    exact hchars.append_left _

/-- the tokens and the one under way have, in order, characters that were there -/
theorem advance_sublist (cs : List Char) :
    ((s.advance cs).1.flatMap String.toList ++ (s.advance cs).2.current).Sublist (s.current ++ cs) := by
  induction cs generalizing s with
  | nil => simp [advance]
  | cons c cs ih =>
    have hrest := (ih (s.step c).2).append_left ((s.step c).1.flatMap String.toList)
    have hstep := (s.step_sublist c).append_right cs
    rw [List.append_assoc, List.append_assoc, List.singleton_append] at hstep
    rw [advance, List.flatMap_append, List.append_assoc]
    exact hrest.trans hstep

/-- the tokens of a text have, in order, characters of the text -/
theorem run_sublist (cs : List Char) : ((s.run cs).flatMap String.toList).Sublist (s.current ++ cs) := by
  rw [run, List.flatMap_append, flatMap_ended]
  exact s.advance_sublist cs

/-- some token begins with the one that is under way -/
theorem exists_prefix_mem_run (h : s.current ≠ []) (cs : List Char) : ∃ t ∈ s.run cs, s.current <+: t.toList := by
  have hended {s : Scanner} (h : s.current ≠ []) : ∃ t ∈ s.ended, s.current <+: t.toList :=
    ⟨String.ofList s.current, by rw [ended, if_neg h]; exact List.mem_singleton_self _, by simp⟩
  induction cs generalizing s with
  | nil => exact hended h
  | cons c cs ih =>
    rw [run_cons]
    rcases s.step_cases c with ⟨inside, hstep⟩ | ⟨more, -, hstep⟩
    · obtain ⟨t, ht, hbegins⟩ := ih ⟨s.current ++ [c], inside⟩ (by simp)
      rw [hstep]
      exact ⟨t, List.mem_append_right _ ht, (List.prefix_append _ _).trans hbegins⟩
    · obtain ⟨t, ht, hbegins⟩ := hended h
      rw [hstep]
      exact ⟨t, List.mem_append_left _ (List.mem_append_left _ ht), hbegins⟩

end Scanner

/-! ## What stands for a token under way -/

/-- the words of a text that was made ready for the cut, with their spaces again -/
def shownWords (cs : List Char) : List String := (words cs).map fun word => String.ofList (showSpaces word)

theorem scan_eq_shownWords (source : String) : scan source = shownWords (spreadFrom false source.toList) :=
  scan_eq source

/-- a blank ends a word -/
theorem shownWords_append_blank {c : Char} (hc : isBlank c = true) (front back : List Char) :
    shownWords (front ++ c :: back) = shownWords front ++ shownWords back := by
  rw [shownWords, words_append_blank hc, List.map_append]
  rfl

/-- a piece of a word that shows as the characters of a token, whatever follows -/
structure StandIn (piece current : List Char) : Prop where
  no_blank : ∀ c ∈ piece, isBlank c = false
  shows : ∀ rest, showSpaces (piece ++ rest) = current ++ showSpaces rest

namespace StandIn

variable {piece current : List Char} {c : Char}

theorem nil : StandIn [] [] := ⟨by simp, fun _ => rfl⟩

/-- one more character that shows as itself -/
theorem push (h : StandIn piece current) (hnul : c ≠ '\x00') (hc : isBlank c = false) :
    StandIn (piece ++ [c]) (current ++ [c]) where
  no_blank := List.forall_mem_append.2 ⟨h.no_blank, List.forall_mem_singleton.2 hc⟩
  shows rest := by
    rw [List.append_assoc, h.shows, List.singleton_append, showSpaces_cons hnul, List.append_assoc,
      List.singleton_append]

/-- one more mark -/
theorem space (h : StandIn piece current) : StandIn (piece ++ spaceMark) (current ++ [' ']) where
  no_blank := List.forall_mem_append.2 ⟨h.no_blank, fun _ => isBlank_of_mem_spaceMark⟩
  shows rest := by
    have hmark : showSpaces (spaceMark ++ rest) = ' ' :: showSpaces rest := rfl
    rw [List.append_assoc, h.shows, hmark, List.append_assoc, List.singleton_append]

theorem shown (h : StandIn piece current) : showSpaces piece = current := by
  have hend := h.shows []
  rwa [List.append_nil, showSpaces, List.append_nil] at hend

theorem shownWords_eq {s : Scanner} (h : StandIn piece s.current) : shownWords piece = s.ended := by
  by_cases hpiece : piece = []
  · have hcurrent : s.current = [] := by rw [← h.shown, hpiece, showSpaces]
    rw [hpiece, Scanner.ended, if_pos hcurrent]
    rfl
  · have hcurrent : s.current ≠ [] := by rwa [← h.shown, Ne, showSpaces_eq_nil]
    rw [shownWords, words_of_no_blank hpiece h.no_blank, List.map_singleton, h.shown, Scanner.ended, if_neg hcurrent]

/-! ## Step by step -/

variable {s : Scanner}

/-- a character is taken alike on both sides: the same tokens are complete, and what is left stands for what the
scanner goes on with -/
def Follows (piece : List Char) (s : Scanner) (c : Char) (result : List String × Scanner) : Prop :=
  ∃ next, StandIn next result.2.current ∧ ∀ cs,
    shownWords (piece ++ spreadFrom s.inside (c :: cs))
      = result.1 ++ shownWords (next ++ spreadFrom result.2.inside cs)

/-- the word goes on, and so does the token -/
theorem follows_of_push {t : Scanner} {added : List Char} (h : StandIn (piece ++ added) t.current)
    (hspread : ∀ cs, spreadFrom s.inside (c :: cs) = added ++ spreadFrom t.inside cs) : Follows piece s c ([], t) := by
  refine ⟨piece ++ added, h, fun cs => ?_⟩
  rw [hspread, ← List.append_assoc, List.nil_append]

/-- a blank ends the word and the token -/
theorem follows_of_blank (h : StandIn piece s.current) (hc : isBlank c = true)
    (hspread : ∀ cs, spreadFrom s.inside (c :: cs) = c :: spreadFrom s.inside cs) :
    Follows piece s c (s.ended, s.cut) := by
  refine ⟨[], nil, fun cs => ?_⟩
  rw [hspread, shownWords_append_blank hc, h.shownWords_eq]
  rfl

/-- a parenthesis has a space on both sides -/
theorem follows_of_paren (h : StandIn piece s.current) (houtside : s.inside = false) (hc : c = '(' ∨ c = ')') :
    Follows piece s c (s.ended ++ [String.ofList [c]], s.cut) := by
  have hspace : isBlank ' ' = true := by decide
  have hsingle : shownWords [c] = [String.ofList [c]] := by rcases hc with rfl | rfl <;> decide
  have hspread : ∀ cs, spreadFrom false (c :: cs) = ' ' :: ([c] ++ ' ' :: spreadFrom false cs) := fun cs => by
    rcases hc with rfl | rfl <;> rfl
  refine ⟨[], nil, fun cs => ?_⟩
  rw [houtside, hspread, shownWords_append_blank hspace, shownWords_append_blank hspace, hsingle, h.shownWords_eq,
    List.append_assoc, Scanner.cut, houtside]
  rfl

theorem follows_quote (h : StandIn piece s.current) : Follows piece s '"' (s.step '"') := by
  rw [s.step_quote]
  exact follows_of_push (h.push (by decide) (by decide)) fun cs => by rw [spreadFrom, if_pos rfl]; rfl

theorem follows_inside (h : StandIn piece s.current) (hinside : s.inside = true) (hquote : c ≠ '"')
    (hnul : c ≠ '\x00') : Follows piece s c (s.step c) := by
  have hspread (cs : List Char) : spreadFrom s.inside (c :: cs) = hideSpaces [c] ++ spreadFrom s.inside cs := by
    rw [spreadFrom, if_neg hquote, if_pos hinside]
  by_cases hspace : c = ' '
  · subst hspace
    rw [s.step_inside_other hinside hquote fun _ => rfl]
    exact follows_of_push h.space hspread
  · have hhide : hideSpaces [c] = [c] := by simp [hideSpaces, hspace]
    rw [hhide] at hspread
    cases hblank : isBlank c with
    | true =>
      rw [s.step_inside_blank hinside hblank hspace]
      exact h.follows_of_blank hblank hspread
    | false =>
      rw [s.step_inside_other hinside hquote fun hc => by rw [hblank] at hc; cases hc]
      exact follows_of_push (h.push hnul hblank) hspread

theorem follows_outside (h : StandIn piece s.current) (houtside : s.inside = false) (hquote : c ≠ '"')
    (hnul : c ≠ '\x00') : Follows piece s c (s.step c) := by
  by_cases hparen : c = '(' ∨ c = ')'
  · rw [s.step_paren houtside hparen]
    exact h.follows_of_paren houtside hparen
  · have hspread (cs : List Char) : spreadFrom s.inside (c :: cs) = [c] ++ spreadFrom s.inside cs := by
      have hplain : spaceParens [c] = [c] := by simp [spaceParens, hparen]
      rw [spreadFrom, if_neg hquote, if_neg (by simp [houtside]), hplain]
    cases hblank : isBlank c with
    | true =>
      rw [s.step_outside_blank houtside hblank]
      exact h.follows_of_blank hblank hspread
    | false =>
      rw [s.step_outside_other houtside hquote hparen hblank]
      exact follows_of_push (h.push hnul hblank) hspread

/-- **A step of the scanner.** What stands for the token under way goes on to stand for it behind the next character,
and the same tokens come before. -/
theorem step (h : StandIn piece s.current) (hnul : c ≠ '\x00') : Follows piece s c (s.step c) := by
  by_cases hquote : c = '"'
  · subst hquote
    exact h.follows_quote
  · cases hinside : s.inside with
    | true => exact h.follows_inside hinside hquote hnul
    | false => exact h.follows_outside hinside hquote hnul

theorem run (h : StandIn piece s.current) {cs : List Char} (hnul : '\x00' ∉ cs) :
    shownWords (piece ++ spreadFrom s.inside cs) = s.run cs := by
  induction cs generalizing s piece with
  | nil => rw [spreadFrom, List.append_nil, h.shownWords_eq, Scanner.run_nil]
  | cons c cs ih =>
    have hc : c ≠ '\x00' := fun hc => hnul (by simp [hc])
    obtain ⟨next, hnext, hstep⟩ := h.step hc
    rw [hstep, ih hnext fun hmem => hnul (List.mem_cons_of_mem _ hmem), Scanner.run_cons]

end StandIn

theorem shownWords_spreadFrom {cs : List Char} (h : '\x00' ∉ cs) :
    shownWords (spreadFrom false cs) = Scanner.start.run cs :=
  StandIn.nil.run (s := Scanner.start) h

/-- **One pass gives the tokens.** In a text without the outer character of the mark, a scanner that goes over it once
finds the same tokens, be its literals closed or not and whatever they touch. -/
theorem scan_eq_run {source : String} (h : '\x00' ∉ source.toList) : scan source = Scanner.start.run source.toList := by
  rw [scan_eq_shownWords, shownWords_spreadFrom h]

/-- words that touch literals, a tab inside of a literal, and a literal that is not closed -/
theorem touching_literals_are_scanned :
    let source := "(a\"b (c\"\"\"d)\"e\tf\" \" ("
    '\x00' ∉ source.toList ∧ Scanner.start.run source.toList = ["(", "a\"b (c\"\"\"d", ")", "\"e", "f\"", "\" ("] ∧
      scan source = Scanner.start.run source.toList := by
  intro source
  have hnul : '\x00' ∉ source.toList := by decide
  exact ⟨hnul, by decide, scan_eq_run hnul⟩

end FrameLisp.Token
