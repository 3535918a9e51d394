/-
Where the literals of a text end.

A text is taken as literals with a text in front of the first one and behind each of them (`Passage`). Blanks and
parentheses end a token, and a quotation mark does not. So a literal is a token by itself just if a blank, a
parenthesis or nothing stands in front of it and behind it (`Passage.Apart`); else it goes into one token with the word
or the literal that it touches, and this token stands for another string or for an identifier.

Results:
- `Token.run_apart`: the tokens of literals that are apart are the literals and the tokens of the texts between them.
- `Token.apart_of_isLiteral`: if each token with a quotation mark is a literal, then the literals are apart.
- `literals_are_strings_iff_apart`: exactly then the strings of the forms that are read are the literals, and no
  identifier has a quotation mark in it.
Refutation:
- `adjacent_literals_are_one`: literals that touch are not read as strings of their own.
-/
import FrameLisp.Proofs.Number.Printed
import FrameLisp.Proofs.Reading.Literal

namespace FrameLisp

namespace Token

open FrameLisp.Text

/-! ## Boundaries -/

/-- the characters that end a token outside of literals -/
def isBoundary (c : Char) : Bool := isBlank c || c == '(' || c == ')'

/-- a text in front of a literal does not touch it -/
def EndsApart (front : List Char) : Prop := ∀ c ∈ front.getLast?, isBoundary c = true

/-- a text behind a literal does not touch it -/
def BeginsApart (back : List Char) : Prop := ∀ c ∈ back.head?, isBoundary c = true

instance (front : List Char) : Decidable (EndsApart front) :=
  decidable_of_iff (front.getLast?.all isBoundary = true) (Option.all_eq_true _ _)

instance (back : List Char) : Decidable (BeginsApart back) :=
  decidable_of_iff (back.head?.all isBoundary = true) (Option.all_eq_true _ _)

namespace Scanner

variable {s : Scanner} {c : Char}

theorem ended_start : start.ended = [] := rfl

/-- a boundary is taken as it is at the beginning of a text, once the token under way is ended -/
theorem step_boundary (houtside : s.inside = false) (hc : isBoundary c = true) :
    s.step c = (s.ended ++ (start.step c).1, start) := by
  have hcut : s.cut = start := by rw [cut, houtside]; rfl
  by_cases hparen : c = '(' ∨ c = ')'
  · rw [s.step_paren houtside hparen, start.step_paren rfl hparen, hcut]
    rfl
  · have hblank : isBlank c = true := by
      rw [not_or] at hparen
      simpa [isBoundary, hparen] using hc
    rw [s.step_outside_blank houtside hblank, start.step_outside_blank rfl hblank, hcut, ended_start,
      List.append_nil]

/-- anything else goes to the token under way, the quotation mark included -/
theorem step_within (houtside : s.inside = false) (hc : isBoundary c = false) :
    s.step c = ([], ⟨s.current ++ [c], decide (c = '"')⟩) := by
  by_cases hquote : c = '"'
  · subst hquote
    rw [s.step_quote, houtside]
    rfl
  · simp only [isBoundary, Bool.or_eq_false_iff, beq_eq_false_iff_ne] at hc
    obtain ⟨⟨hblank, hopen⟩, hclose⟩ := hc
    rw [s.step_outside_other houtside hquote (fun h => h.elim hopen hclose) hblank, decide_eq_false hquote, push,
      houtside]

/-- a boundary behind the token under way, or nothing, ends it -/
theorem run_boundary (houtside : s.inside = false) {cs : List Char} (hcs : BeginsApart cs) :
    s.run cs = s.ended ++ start.run cs := by
  cases cs with
  | nil => rw [run_nil, run_nil, ended_start, List.append_nil]
  | cons c cs =>
    have hc : isBoundary c = true := hcs c rfl
    rw [run_cons, run_cons, step_boundary houtside hc, step_boundary (s := start) rfl hc, List.append_assoc]

/-- within a literal everything is taken that may stand in it -/
theorem run_inside {text : List Char} (htext : ∀ c ∈ text, c ≠ '"' ∧ (isBlank c = true → c = ' '))
    (current rest : List Char) : run ⟨current, true⟩ (text ++ rest) = run ⟨current ++ text, true⟩ rest := by
  induction text generalizing current with
  | nil => rw [List.nil_append, List.append_nil]
  | cons c text ih =>
    rw [List.forall_mem_cons] at htext
    have hstep : step ⟨current, true⟩ c = ([], ⟨current ++ [c], true⟩) := step_inside_other _ rfl htext.1.1 htext.1.2
    rw [List.cons_append, run_cons, hstep, List.nil_append, ih htext.2, List.append_assoc, List.singleton_append]

/-- a literal goes to the token under way -/
theorem run_literal {text : String} (htext : Quotable text) (current rest : List Char) :
    run ⟨current, false⟩ (("\"" ++ text ++ "\"").toList ++ rest)
      = run ⟨current ++ ("\"" ++ text ++ "\"").toList, false⟩ rest := by
  have hchars : ∀ c ∈ text.toList, c ≠ '"' ∧ (isBlank c = true → c = ' ') := fun c hc =>
    ⟨(htext c hc).1, (htext c hc).2.2⟩
  rw [toList_literal, List.cons_append, List.append_assoc, List.singleton_append, run_cons, step_quote, push,
    List.nil_append, Bool.not_false, run_inside hchars, run_cons, step_quote, push, List.nil_append, Bool.not_true,
    List.append_assoc, List.append_assoc, List.singleton_append]

theorem inside_advance_of_no_quote {front : List Char} (hfront : '"' ∉ front) :
    (start.advance front).2.inside = false := by
  rw [inside_advance]
  exact insideAfter_of_even (by rw [List.count_eq_zero.2 hfront]) false

/-- a text without quotation marks leaves no token under way just if it ends with a boundary -/
theorem current_advance_eq_nil_iff {front : List Char} (hfront : '"' ∉ front) :
    (start.advance front).2.current = [] ↔ EndsApart front := by
  rcases List.eq_nil_or_concat front with rfl | ⟨front, c, rfl⟩
  · exact iff_of_true rfl (by simp [EndsApart])
  · have houtside : (start.advance front).2.inside = false := inside_advance_of_no_quote fun h => hfront (by simp [h])
    have hlast : (start.advance (front ++ [c])).2 = ((start.advance front).2.step c).2 := advance_append ..
    rw [List.concat_eq_append, hlast]
    cases hc : isBoundary c with
    | true =>
      rw [step_boundary houtside hc]
      exact iff_of_true rfl (by simp [EndsApart, hc])
    | false =>
      rw [step_within houtside hc]
      exact iff_of_false (by simp) (by simp [EndsApart, hc])

/-- a text that ends with a boundary has its tokens whatever follows -/
theorem run_front {front : List Char} (hfront : '"' ∉ front) (hends : EndsApart front) (rest : List Char) :
    start.run (front ++ rest) = start.run front ++ start.run rest := by
  have hstart : (start.advance front).2 = start := by
    rw [start, mk.injEq]
    exact ⟨(current_advance_eq_nil_iff hfront).2 hends, inside_advance_of_no_quote hfront⟩
  have hrun : start.run front = (start.advance front).1 := by rw [run, hstart, ended_start, List.append_nil]
  rw [run_append, hstart, hrun]

/-- a literal that a boundary or nothing follows is a token -/
theorem run_literal_boundary {text : String} (htext : Quotable text) {rest : List Char} (hrest : BeginsApart rest) :
    start.run (("\"" ++ text ++ "\"").toList ++ rest) = ("\"" ++ text ++ "\"") :: start.run rest := by
  have hne : ("\"" ++ text ++ "\"").toList ≠ [] := by rw [toList_literal]; exact List.cons_ne_nil _ _
  rw [start, run_literal htext, run_boundary rfl hrest, ended, List.nil_append, if_neg hne, String.ofList_toList]
  rfl

end Scanner

/-! ## Passages -/

/-- the texts that stand outside of literals -/
def Outside (s : String) : Prop := ∀ c ∈ s.toList, c ≠ '"' ∧ c ≠ '\x00'

instance (s : String) : Decidable (Outside s) := List.decidableBAll _ s.toList

theorem Outside.no_quote {s : String} (h : Outside s) : '"' ∉ s.toList := fun hmem => (h _ hmem).1 rfl

theorem Outside.no_nul {s : String} (h : Outside s) : '\x00' ∉ s.toList := fun hmem => (h _ hmem).2 rfl

theorem Outside.scan_eq {s : String} (h : Outside s) : scan s = Scanner.start.run s.toList := by
  rw [scan_eq_shownWords, shownWords_spreadFrom h.no_nul]

theorem Outside.no_quote_of_mem_scan {s t : String} (h : Outside s) (ht : t ∈ scan s) : '"' ∉ t.toList := by
  intro hmem
  rw [h.scan_eq] at ht
  exact h.no_quote ((Scanner.start.run_sublist s.toList).subset (List.mem_flatMap_of_mem ht hmem))

/-- the text of a literal, and the text behind the literal up to the next one -/
structure Quotation where
  text : String
  after : String
  quotable : Quotable text
  outside : Outside after

namespace Quotation

/-- a literal as it is written -/
def literal (q : Quotation) : String := "\"" ++ q.text ++ "\""

/-- the characters of literals one after another, each with what is behind it -/
def chars : List Quotation → List Char
  | [] => []
  | q :: qs => '"' :: (q.text.toList ++ '"' :: (q.after.toList ++ chars qs))

theorem chars_cons (q : Quotation) (qs : List Quotation) :
    chars (q :: qs) = q.literal.toList ++ (q.after.toList ++ chars qs) := by
  rw [literal, toList_literal, chars, List.cons_append, List.append_assoc, List.singleton_append]

/-- the tokens of literals that touch nothing, and of the texts behind them -/
def tokens (qs : List Quotation) : List String := qs.flatMap fun q => q.literal :: scan q.after

/-- whether each literal has a boundary or nothing in front of it and behind it -/
def Apart (front : List Char) : List Quotation → Prop
  | [] => True
  | q :: qs => EndsApart front ∧ BeginsApart (q.after.toList ++ chars qs) ∧ Apart q.after.toList qs

instance decidableApart : (front : List Char) → (qs : List Quotation) → Decidable (Apart front qs)
  | _, [] => .isTrue trivial
  | front, q :: qs =>
    have := decidableApart q.after.toList qs
    inferInstanceAs (Decidable (EndsApart front ∧ BeginsApart (q.after.toList ++ chars qs) ∧ Apart q.after.toList qs))

end Quotation

/-- a text with literals in it -/
structure Passage where
  lead : String
  quotations : List Quotation
  outside : Outside lead

namespace Passage

variable (p : Passage)

def text : String := String.ofList (p.lead.toList ++ Quotation.chars p.quotations)

/-- the texts of the literals, in order -/
def literals : List String := p.quotations.map (·.text)

/-- whether nothing touches a literal -/
def Apart : Prop := Quotation.Apart p.lead.toList p.quotations

instance : Decidable p.Apart := inferInstanceAs (Decidable (Quotation.Apart _ _))

theorem no_nul : '\x00' ∉ p.text.toList := by
  have hchars (qs : List Quotation) : '\x00' ∉ Quotation.chars qs := by
    induction qs with
    | nil => exact List.not_mem_nil
    | cons q qs ih => simp [Quotation.chars, q.quotable.no_nul, q.outside.no_nul, ih]
  rw [text, String.toList_ofList, List.mem_append]
  exact fun h => h.elim p.outside.no_nul (hchars _)

theorem scan_text : scan p.text = Scanner.start.run (p.lead.toList ++ Quotation.chars p.quotations) := by
  rw [scan_eq_shownWords, shownWords_spreadFrom p.no_nul, text, String.toList_ofList]

end Passage

/-! ## Literals that are apart -/

/-- **Literals that are apart are tokens.** The tokens are the literals and the tokens of the texts around them. -/
theorem run_apart {front : List Char} (hfront : '"' ∉ front) {qs : List Quotation} (h : Quotation.Apart front qs) :
    Scanner.start.run (front ++ Quotation.chars qs) = Scanner.start.run front ++ Quotation.tokens qs := by
  -- by induction on the literals: behind a boundary the scanner is where it began, and the rest is a text of its own
  induction qs generalizing front with
  | nil => rw [Quotation.chars, Quotation.tokens, List.flatMap_nil, List.append_nil, List.append_nil]
  | cons q qs ih =>
    obtain ⟨hends, hbegins, hrest⟩ := h
    rw [Quotation.chars_cons, Scanner.run_front hfront hends, Quotation.literal,
      Scanner.run_literal_boundary q.quotable hbegins, ih q.outside.no_quote hrest, Quotation.tokens, Quotation.tokens,
      List.flatMap_cons, q.outside.scan_eq]
    rfl

/-- a literal and nothing else -/
def IsLiteral (t : String) : Prop := ∃ text : String, '"' ∉ text.toList ∧ t = "\"" ++ text ++ "\""

/-- nothing goes on behind the second quotation mark of a literal -/
theorem IsLiteral.eq_of_begins {t text : String} (ht : IsLiteral t)
    (hbegins : ("\"" ++ text ++ "\"").toList <+: t.toList) : t = "\"" ++ text ++ "\"" := by
  obtain ⟨whole, hwhole, rfl⟩ := ht
  rw [toList_literal, toList_literal, List.cons_prefix_cons] at hbegins
  rcases List.prefix_concat_iff.1 hbegins.2 with heq | hshort
  · rw [← String.toList_inj, toList_literal, toList_literal, heq]
  · exact absurd (hshort.subset (by simp)) hwhole

/-- if each token with a quotation mark is a literal, then nothing that goes on stands in front of a literal -/
theorem endsApart_of_isLiteral {front rest : List Char} (hfront : '"' ∉ front) {text : String} (htext : Quotable text)
    (h : ∀ t ∈ Scanner.start.run (front ++ (("\"" ++ text ++ "\"").toList ++ rest)), '"' ∈ t.toList → IsLiteral t) :
    EndsApart front := by
  -- else the token that the literal goes to begins with a character of `front`, so not with a quotation mark
  by_contra hends
  obtain ⟨c, cs, hcurrent⟩ := List.exists_cons_of_ne_nil fun hnil =>
    hends ((Scanner.current_advance_eq_nil_iff hfront).1 hnil)
  have hstate : (Scanner.start.advance front).2 = ⟨c :: cs, false⟩ := by
    rw [← hcurrent, ← Scanner.inside_advance_of_no_quote hfront]
  obtain ⟨t, ht, hbegins⟩ := Scanner.exists_prefix_mem_run
    ⟨c :: cs ++ ("\"" ++ text ++ "\"").toList, false⟩ (by simp) rest
  have hmem : t ∈ Scanner.start.run (front ++ (("\"" ++ text ++ "\"").toList ++ rest)) := by
    rw [Scanner.run_append, hstate, Scanner.run_literal htext]
    exact List.mem_append_right _ ht
  obtain ⟨whole, -, rfl⟩ := h t hmem (hbegins.subset (by simp))
  rw [toList_literal whole, List.cons_append, List.cons_prefix_cons] at hbegins
  have hc : c ∈ (Scanner.start.advance front).2.current := by rw [hcurrent]; exact List.mem_cons_self
  exact hfront (hbegins.1 ▸ (Scanner.start.advance_sublist front).subset (List.mem_append_right _ hc))

/-- and nothing that goes on stands behind it -/
theorem beginsApart_of_isLiteral {rest : List Char} {text : String} (htext : Quotable text)
    (h : ∀ t ∈ Scanner.start.run (("\"" ++ text ++ "\"").toList ++ rest), '"' ∈ t.toList → IsLiteral t) :
    BeginsApart rest := by
  intro c hc
  obtain ⟨cs, rfl⟩ := List.head?_eq_some_iff.1 hc
  -- else the token goes on behind the second quotation mark
  by_contra hwithin
  obtain ⟨t, ht, hbegins⟩ := Scanner.exists_prefix_mem_run
    ⟨("\"" ++ text ++ "\"").toList ++ [c], decide (c = '"')⟩ (by simp) cs
  have hmem : t ∈ Scanner.start.run (("\"" ++ text ++ "\"").toList ++ c :: cs) := by
    rw [Scanner.start, Scanner.run_literal htext, Scanner.run_cons,
      Scanner.step_within rfl (Bool.eq_false_iff.2 hwithin)]
    exact ht
  have hliteral := (h t hmem (hbegins.subset (by simp))).eq_of_begins ((List.prefix_append _ _).trans hbegins)
  rw [hliteral] at hbegins
  simpa using hbegins.length_le

/-- **Literals that are tokens are apart.** -/
theorem apart_of_isLiteral {front : List Char} (hfront : '"' ∉ front) {qs : List Quotation}
    (h : ∀ t ∈ Scanner.start.run (front ++ Quotation.chars qs), '"' ∈ t.toList → IsLiteral t) :
    Quotation.Apart front qs := by
  induction qs generalizing front with
  | nil => trivial
  | cons q qs ih =>
    rw [Quotation.chars_cons] at h
    have hends : EndsApart front := endsApart_of_isLiteral hfront q.quotable h
    rw [Scanner.run_front hfront hends, List.forall_mem_append] at h
    have hbegins : BeginsApart (q.after.toList ++ Quotation.chars qs) := beginsApart_of_isLiteral q.quotable h.2
    rw [Quotation.literal, Scanner.run_literal_boundary q.quotable hbegins, List.forall_mem_cons] at h
    exact ⟨hends, hbegins, ih q.outside.no_quote h.2.2⟩

end Token

/-! ## Strings -/

namespace Atom

theorem eq_of_ofToken_identifier {t name : String} (h : ofToken t = .identifier name) : t = name := by
  unfold ofToken at h
  split at h
  · cases h
  · split at h
    · cases h
    · exact identifier.inj h

/-- a token with a quotation mark in it is no number -/
theorem ofToken_cases {t : String} (h : '"' ∈ t.toList) : ofToken t = .identifier t ∨ ∃ s, ofToken t = .string s := by
  unfold ofToken
  split
  · next hnumeral => exact absurd rfl ((Numeral.isWord_of_ofChars? hnumeral).2 _ h).2.2.2.1
  · split
    · exact .inr ⟨_, rfl⟩
    · exact .inl rfl

end Atom

namespace Datum

/-- the text of a string -/
def string? : Datum → Option String
  | .atom (.string s) => some s
  | _ => none

/-- the texts of the strings in forms, from left to right -/
def strings (forms : List Datum) : List String := (leavesAll forms).filterMap string?

/-- just the literals stand for strings -/
theorem string?_ofToken_eq_some_iff {t s : String} :
    string? (.atom (.ofToken t)) = some s ↔ t = "\"" ++ s ++ "\"" := by
  rw [← Atom.ofToken_eq_string_iff]
  cases Atom.ofToken t <;> simp [string?]

/-- the texts of the strings that tokens stand for -/
def stringsOf (tokens : List String) : List String := tokens.filterMap fun t => string? (.atom (.ofToken t))

theorem strings_ofSource (source : String) : strings (ofSource source) = stringsOf (Token.scan source) := by
  rw [strings, ofSource, leavesAll_readAll, List.filterMap_map, List.filterMap_filter]
  refine List.filterMap_congr fun t _ => ?_
  by_cases hparen : Token.IsParen t
  · rw [if_neg (by simpa using hparen)]
    rcases hparen with rfl | rfl <;> rfl
  · rw [if_pos (by simpa using hparen)]
    rfl

theorem stringsOf_append (front back : List String) : stringsOf (front ++ back) = stringsOf front ++ stringsOf back :=
  List.filterMap_append

theorem stringsOf_literal (s : String) (tokens : List String) :
    stringsOf (("\"" ++ s ++ "\"") :: tokens) = s :: stringsOf tokens :=
  List.filterMap_cons_some (string?_ofToken_eq_some_iff.2 rfl)

/-- there are no strings outside of literals -/
theorem stringsOf_outside {s : String} (h : Token.Outside s) : stringsOf (Token.scan s) = [] := by
  refine List.filterMap_eq_nil_iff.2 fun t ht => Option.eq_none_iff_forall_ne_some.2 fun text htext => ?_
  rw [string?_ofToken_eq_some_iff] at htext
  exact h.no_quote_of_mem_scan ht (by simp [htext])

theorem stringsOf_tokens (qs : List Token.Quotation) : stringsOf (Token.Quotation.tokens qs) = qs.map (·.text) := by
  induction qs with
  | nil => rfl
  | cons q qs ih =>
    rw [Token.Quotation.tokens, List.flatMap_cons, List.cons_append, Token.Quotation.literal, stringsOf_literal,
      stringsOf_append, stringsOf_outside q.outside, ← Token.Quotation.tokens, ih]
    rfl

end Datum

namespace Token.Passage

variable {p : Passage}

theorem scan_of_apart (h : p.Apart) : scan p.text = scan p.lead ++ Quotation.tokens p.quotations := by
  rw [p.scan_text, run_apart p.outside.no_quote h, p.outside.scan_eq]

/-- the quotation marks of literals that are apart are in the literals -/
theorem literal_of_mem_scan (h : p.Apart) {t : String} (ht : t ∈ scan p.text) (hquote : '"' ∈ t.toList) :
    ∃ q ∈ p.quotations, t = q.literal := by
  rw [scan_of_apart h] at ht
  rcases List.mem_append.1 ht with ht | ht
  · exact absurd hquote (p.outside.no_quote_of_mem_scan ht)
  · obtain ⟨q, hq, ht⟩ := List.mem_flatMap.1 ht
    rcases List.mem_cons.1 ht with rfl | ht
    · exact ⟨q, hq, rfl⟩
    · exact absurd hquote (q.outside.no_quote_of_mem_scan ht)

theorem strings_of_apart (h : p.Apart) : Datum.strings (Datum.ofSource p.text) = p.literals := by
  rw [Datum.strings_ofSource, scan_of_apart h, Datum.stringsOf_append, Datum.stringsOf_outside p.outside,
    Datum.stringsOf_tokens]
  rfl

theorem no_quote_of_identifier (h : p.Apart) {name : String}
    (hname : .atom (.identifier name) ∈ Datum.leavesAll (Datum.ofSource p.text)) : '"' ∉ name.toList := by
  intro hquote
  obtain ⟨t, ht, -, hatom⟩ := Datum.atom_mem_ofSource_iff.1 hname
  rw [← Atom.eq_of_ofToken_identifier hatom] at hquote
  obtain ⟨q, -, rfl⟩ := literal_of_mem_scan h ht hquote
  rw [Atom.ofToken_eq_string_iff.2 (rfl : q.literal = _)] at hatom
  cases hatom

/-- a token with a quotation mark in it is a literal, if the literals are read as strings and no identifier has one -/
theorem apart_of_strings (hstrings : Datum.strings (Datum.ofSource p.text) = p.literals)
    (hnames : ∀ x, .atom (.identifier x) ∈ Datum.leavesAll (Datum.ofSource p.text) → '"' ∉ x.toList) : p.Apart := by
  refine apart_of_isLiteral p.outside.no_quote fun t ht hquote => ?_
  rw [← p.scan_text] at ht
  have hparen : ¬ IsParen t := by
    rintro (rfl | rfl) <;> simp at hquote
  rcases Atom.ofToken_cases hquote with hname | ⟨s, hs⟩
  · exact absurd hquote (hnames t (Datum.atom_mem_ofSource_iff.2 ⟨t, ht, hparen, hname⟩))
  · have hmem : s ∈ p.literals := by
      rw [← hstrings, Datum.strings_ofSource]
      exact List.mem_filterMap.2 ⟨t, ht, by rw [hs]; rfl⟩
    obtain ⟨q, -, rfl⟩ := List.mem_map.1 hmem
    exact ⟨q.text, q.quotable.no_quote, Atom.ofToken_eq_string_iff.1 hs⟩

end Token.Passage

/-- **The boundaries of literals.** The strings that are read from a text with literals are the texts of the literals,
and no identifier has a quotation mark in it, just if a blank, a parenthesis or nothing stands on both sides of each
literal. Then the literals and the tokens of the texts around them are the tokens. The forms are read in every world,
unless their lists are nested beyond the limit. -/
theorem literals_are_strings_iff_apart (p : Token.Passage) :
    let forms := Datum.ofSource p.text
    (∀ limits w, (Program.read limits p.text w).1 =
        if Token.nestedWithin limits.reading (Token.scan p.text) then .ok forms else .error .tooDeep) ∧
      (p.Apart → Token.scan p.text = Token.scan p.lead ++ Token.Quotation.tokens p.quotations) ∧
      (Datum.strings forms = p.literals ∧ (∀ x, .atom (.identifier x) ∈ Datum.leavesAll forms → '"' ∉ x.toList) ↔
        p.Apart) := by
  intro forms
  refine ⟨fun limits => Program.outcome_read limits p.text, Token.Passage.scan_of_apart, ?_, ?_⟩
  · exact fun h => Token.Passage.apart_of_strings h.1 h.2
  · exact fun h => ⟨Token.Passage.strings_of_apart h, fun _ => Token.Passage.no_quote_of_identifier h⟩

/-- literals that are apart are read as strings, and a word that touches one is not -/
theorem parentheses_keep_literals_apart :
    let quotations (after : String) (h : Token.Outside after) : List Token.Quotation :=
      [⟨"a  (b)", after, by decide, h⟩, ⟨"", "\tc", by decide, by decide⟩]
    let apart : Token.Passage := ⟨"(x(", quotations ")(y )" (by decide), by decide⟩
    let touching : Token.Passage := ⟨"(x(", quotations ")(y" (by decide), by decide⟩
    Datum.strings (Datum.ofSource apart.text) = ["a  (b)", ""] ∧
      ¬ (Datum.strings (Datum.ofSource touching.text) = ["a  (b)", ""] ∧
        ∀ x, .atom (.identifier x) ∈ Datum.leavesAll (Datum.ofSource touching.text) → '"' ∉ x.toList) := by
  intro quotations apart touching
  have hapart : apart.Apart := by decide
  have htouching : ¬ touching.Apart := by decide
  exact ⟨((literals_are_strings_iff_apart apart).2.2.2 hapart).1,
    fun h => htouching ((literals_are_strings_iff_apart touching).2.2.1 h)⟩

/-- it is not so that literals are strings whatever they touch -/
theorem adjacent_literals_are_one :
    ¬ ∀ p : Token.Passage, Datum.strings (Datum.ofSource p.text) = p.literals ∧
      ∀ x, .atom (.identifier x) ∈ Datum.leavesAll (Datum.ofSource p.text) → '"' ∉ x.toList := by
  intro h
  have hstrings := (h ⟨"", [⟨"a", "", by decide, by decide⟩, ⟨"b", "", by decide, by decide⟩], by decide⟩).1
  rw [Datum.strings_ofSource] at hstrings
  exact absurd hstrings (by decide)

end FrameLisp
