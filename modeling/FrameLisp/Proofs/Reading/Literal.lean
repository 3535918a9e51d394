/-
What a literal keeps of its text.

The text between two quotation marks is one token, and the string that it stands for is the text, under two conditions
(`Token.Kept`). The first is that the space is its only blank, since a literal is cut at every other one. The second is
that nothing in the text reads as the mark for a space once the spaces are replaced (`Token.Clashes`), which takes the
outer character of the mark.

Results:
- `Token.showSpaces_hideSpaces_iff`: hiding the spaces of a text can be taken back just if nothing in it clashes.
- `Token.mem_scan_literal_iff`: a literal is one of its tokens just if its text is kept.
- `literal_is_kept_iff`: exactly then it is the only token, and exactly then its text is read as one string; a literal
  that is cut at a blank gives no string at all.
Refutation:
- `literal_with_tab_is_cut`: not every text is kept.
-/
import FrameLisp.Proofs.Reading.Balance
import FrameLisp.Proofs.Token.Scanner

namespace FrameLisp

namespace Token

open FrameLisp.Text

/-! ## Spaces that cannot be told from a mark -/

/-- the mark up to its last character -/
def markFront : List Char := ['\x00', 's', 'p', 'a', 'c', 'e']

/-- a text that begins like a mark once its spaces are hidden, although not with a space -/
def BeginsMark (cs : List Char) : Prop := markFront ++ ['\x00'] <+: cs ∨ markFront ++ [' '] <+: cs

/-- a text in which such a piece occurs -/
def Clashes (cs : List Char) : Prop := markFront ++ ['\x00'] <:+: cs ∨ markFront ++ [' '] <:+: cs

instance (cs : List Char) : Decidable (BeginsMark cs) := inferInstanceAs (Decidable (_ ∨ _))

theorem clashes_cons {c : Char} {cs : List Char} : Clashes (c :: cs) ↔ BeginsMark (c :: cs) ∨ Clashes cs := by
  rw [Clashes, Clashes, BeginsMark, List.infix_cons_iff, List.infix_cons_iff]
  tauto

theorem not_clashes_nil : ¬ Clashes [] := by
  simp [Clashes, markFront]

instance decidableClashes : (cs : List Char) → Decidable (Clashes cs)
  | [] => .isFalse not_clashes_nil
  | c :: cs =>
    have := decidableClashes cs
    decidable_of_iff (BeginsMark (c :: cs) ∨ Clashes cs) clashes_cons.symm

/-- characters that are neither spaces nor in a mark are found again where they were -/
theorem eq_append_of_hideSpaces {cs front rest : List Char} (hfront : ∀ c ∈ front, c ≠ '\x00' ∧ c ≠ '"')
    (h : hideSpaces cs ++ ['"'] = front ++ rest) : ∃ back, cs = front ++ back ∧ hideSpaces back ++ ['"'] = rest := by
  induction front generalizing cs with
  | nil => exact ⟨cs, rfl, h⟩
  | cons d front ih =>
    rw [List.forall_mem_cons] at hfront
    cases cs with
    | nil => exact absurd (List.cons.inj h).1.symm hfront.1.2
    | cons c cs =>
      rw [hideSpaces_cons, List.append_assoc] at h
      by_cases hspace : c = ' '
      · subst hspace
        exact absurd (List.cons.inj h).1.symm hfront.1.1
      · rw [if_neg (by simpa using hspace), List.singleton_append, List.cons_append] at h
        obtain ⟨rfl, hrest⟩ := List.cons.inj h
        obtain ⟨back, rfl, hback⟩ := ih hfront.2 hrest
        exact ⟨back, rfl, hback⟩

theorem beginsMark_of_hideSpaces {cs rest : List Char} (h : hideSpaces cs ++ ['"'] = spaceMark.tail ++ rest) :
    BeginsMark ('\x00' :: cs) := by
  have hfront : ∀ c ∈ ['s', 'p', 'a', 'c', 'e'], c ≠ '\x00' ∧ c ≠ '"' := by simp
  obtain ⟨back, rfl, hback⟩ := eq_append_of_hideSpaces hfront (h : _ = ['s', 'p', 'a', 'c', 'e'] ++ '\x00' :: rest)
  cases back with
  | nil => cases hback
  | cons c back =>
    rw [hideSpaces_cons, List.append_assoc] at hback
    by_cases hspace : c = ' '
    · exact .inr ⟨back, by rw [hspace]; rfl⟩
    · rw [if_neg (by simpa using hspace)] at hback
      obtain ⟨rfl, -⟩ := List.cons.inj hback
      exact .inl ⟨back, rfl⟩

/-- a text that begins like a mark is shown with a space instead -/
theorem showSpaces_of_beginsMark {cs : List Char} (h : BeginsMark cs) (rest : List Char) :
    ∃ shown, showSpaces (hideSpaces cs ++ rest) = ' ' :: shown := by
  rcases h with ⟨back, rfl⟩ | ⟨back, rfl⟩
  · exact ⟨_, rfl⟩
  · exact ⟨_, rfl⟩

/-- any other text that does not begin with a space keeps its first character -/
theorem showSpaces_of_not_beginsMark {c : Char} {cs : List Char} (h : ¬ BeginsMark (c :: cs)) (hspace : c ≠ ' ') :
    showSpaces (hideSpaces (c :: cs) ++ ['"']) = c :: showSpaces (hideSpaces cs ++ ['"']) := by
  rw [hideSpaces_cons, if_neg (by simpa using hspace), List.singleton_append, List.cons_append, showSpaces]
  intro rest hc hrest
  subst hc
  exact h (beginsMark_of_hideSpaces hrest)

/-- **The spaces come back.** Hiding the spaces of the text of a literal is taken back just if nothing clashes. -/
theorem showSpaces_hideSpaces_iff (cs : List Char) :
    showSpaces (hideSpaces cs ++ ['"']) = cs ++ ['"'] ↔ ¬ Clashes cs := by
  induction cs with
  | nil => exact iff_of_true rfl not_clashes_nil
  | cons c cs ih =>
    rw [clashes_cons, not_or, ← ih]
    by_cases hspace : c = ' '
    · subst hspace
      have hbegins : ¬ BeginsMark (' ' :: cs) := by
        rintro (⟨rest, h⟩ | ⟨rest, h⟩) <;> cases h
      have hshow : showSpaces (hideSpaces (' ' :: cs) ++ ['"']) = ' ' :: showSpaces (hideSpaces cs ++ ['"']) := rfl
      rw [hshow, List.cons_append, List.cons_inj_right]
      exact ⟨fun h => ⟨hbegins, h⟩, fun h => h.2⟩
    · by_cases hbegins : BeginsMark (c :: cs)
      · obtain ⟨shown, hshow⟩ := showSpaces_of_beginsMark hbegins ['"']
        rw [hshow, List.cons_append]
        exact iff_of_false (fun h => hspace (List.cons.inj h).1.symm) fun h => h.1 hbegins
      · rw [showSpaces_of_not_beginsMark hbegins hspace, List.cons_append, List.cons_inj_right]
        exact ⟨fun h => ⟨hbegins, h⟩, fun h => h.2⟩

/-! ## Literals that are cut -/

theorem sublist_of_mem_splitOnP {p : Char → Bool} {cs piece : List Char} (h : piece ∈ cs.splitOnP p) :
    piece.Sublist cs := by
  induction cs generalizing piece with
  | nil => simp_all
  | cons d cs ih =>
    obtain ⟨first, pieces, hsplit⟩ := List.exists_cons_of_ne_nil (List.splitOnP_ne_nil p cs)
    rw [List.splitOnP_cons_eq_if_modifyHead] at h
    split_ifs at h
    · rcases List.mem_cons.1 h with rfl | h
      · exact List.nil_sublist _
      · exact (ih h).cons d
    · rw [hsplit, List.modifyHead_cons] at h
      rcases List.mem_cons.1 h with rfl | h
      · exact (ih (hsplit ▸ List.mem_cons_self)).cons_cons d
      · exact (ih (hsplit ▸ List.mem_cons_of_mem _ h)).cons d

theorem count_quote_showSpaces (cs : List Char) : (showSpaces cs).count '"' = cs.count '"' := by
  fun_induction showSpaces cs with
  | case1 cs ih => simpa using ih
  | case2 c cs _ ih => rw [List.count_cons, List.count_cons, ih]
  | case3 => rfl

theorem count_quote_hideSpaces {cs : List Char} (h : '"' ∉ cs) : (hideSpaces cs).count '"' = 0 := by
  refine List.count_eq_zero.2 fun hmem => ?_
  obtain ⟨c, hc, hmem⟩ := List.mem_flatMap.1 hmem
  split_ifs at hmem with hspace
  · exact absurd hmem (by decide)
  · exact h (List.mem_singleton.1 hmem ▸ hc)

/-- a cut does not add quotation marks -/
theorem count_quote_of_mem_shownWords {cs : List Char} {t : String} (h : t ∈ shownWords cs) :
    t.toList.count '"' ≤ cs.count '"' := by
  obtain ⟨word, hword, rfl⟩ := List.mem_map.1 h
  rw [String.toList_ofList, count_quote_showSpaces]
  exact (sublist_of_mem_splitOnP (List.mem_filter.1 hword).1).count_le _

variable {s : String}

/-- **A literal is cut at blanks.** If a blank other than the space is in its text, no token has two quotation marks. -/
theorem count_quote_of_cut (h : '"' ∉ s.toList) {b : Char} (hb : b ∈ s.toList) (hblank : isBlank b = true)
    (hspace : b ≠ ' ') : ∀ t ∈ scan ("\"" ++ s ++ "\""), t.toList.count '"' ≤ 1 := by
  obtain ⟨front, back, hs⟩ := List.append_of_mem hb
  have hfront : '"' ∉ front := fun hmem => h (by rw [hs]; exact List.mem_append_left _ hmem)
  have hback : '"' ∉ back := fun hmem => h (by rw [hs]; exact List.mem_append_right _ (List.mem_cons_of_mem _ hmem))
  have hhide : hideSpaces s.toList = hideSpaces front ++ b :: hideSpaces back := by
    rw [hs, hideSpaces, List.flatMap_append, List.flatMap_cons, if_neg (by simpa using hspace)]
    rfl
  have hspread : spreadFrom false ("\"" ++ s ++ "\"").toList
      = ('"' :: hideSpaces front) ++ b :: (hideSpaces back ++ ['"']) := by
    rw [spread_literal h, hhide, List.append_assoc, List.cons_append, List.cons_append]
  intro t ht
  rw [scan_eq_shownWords, hspread, shownWords_append_blank hblank] at ht
  rcases List.mem_append.1 ht with ht | ht
  · have hcount := count_quote_of_mem_shownWords ht
    rwa [List.count_cons_self, count_quote_hideSpaces hfront] at hcount
  · have hcount := count_quote_of_mem_shownWords ht
    rwa [List.count_append, count_quote_hideSpaces hback] at hcount

/-- a literal whose only blank is the space is one token -/
theorem scan_literal (h : '"' ∉ s.toList) (hblank : ∀ c ∈ s.toList, isBlank c = true → c = ' ') :
    scan ("\"" ++ s ++ "\"") = [String.ofList ('"' :: showSpaces (hideSpaces s.toList ++ ['"']))] := by
  have hquote : isBlank '"' = false := by decide
  have hword : ∀ c ∈ '"' :: (hideSpaces s.toList ++ ['"']), isBlank c = false :=
    List.forall_mem_cons.2 ⟨hquote, List.forall_mem_append.2
      ⟨hideSpaces_no_blank hblank, List.forall_mem_singleton.2 hquote⟩⟩
  rw [scan_eq_shownWords, spread_literal h, shownWords, words_of_no_blank (List.cons_ne_nil _ _) hword,
    List.map_singleton, showSpaces_cons (by decide)]

/-- what the text of a literal must be like to be kept -/
structure Kept (s : String) : Prop where
  blanks : ∀ c ∈ s.toList, isBlank c = true → c = ' '
  marks : ¬ Clashes s.toList

instance (s : String) : Decidable (Kept s) :=
  have : Decidable (∀ c ∈ s.toList, isBlank c = true → c = ' ') := List.decidableBAll _ s.toList
  decidable_of_iff (_ ∧ ¬ Clashes s.toList) ⟨fun h => ⟨h.1, h.2⟩, fun h => ⟨h.blanks, h.marks⟩⟩

theorem scan_literal_of_kept (h : '"' ∉ s.toList) (hkept : Kept s) :
    scan ("\"" ++ s ++ "\"") = ["\"" ++ s ++ "\""] := by
  rw [scan_literal h hkept.blanks, (showSpaces_hideSpaces_iff _).2 hkept.marks, ← toList_literal, String.ofList_toList]

/-- a literal is among its tokens just if its text is kept -/
theorem mem_scan_literal_iff (h : '"' ∉ s.toList) :
    "\"" ++ s ++ "\"" ∈ scan ("\"" ++ s ++ "\"") ↔ Kept s := by
  constructor
  · intro hmem
    have hblank : ∀ c ∈ s.toList, isBlank c = true → c = ' ' := by
      intro c hc hblank
      by_contra hspace
      have hcount := count_quote_of_cut h hc hblank hspace _ hmem
      rw [toList_literal, List.count_cons_self, List.count_append] at hcount
      simp at hcount
    refine ⟨hblank, (showSpaces_hideSpaces_iff _).1 ?_⟩
    rw [scan_literal h hblank, List.mem_singleton, ← String.toList_inj, toList_literal, String.toList_ofList] at hmem
    exact (List.cons.inj hmem).2.symm
  · intro hkept
    rw [scan_literal_of_kept h hkept]
    exact List.mem_singleton_self _

end Token

/-! ## Strings -/

namespace Atom

theorem eq_quoted_of_unquote? {cs ds : List Char} (h : unquote? cs = some ds) : cs = '"' :: (ds ++ ['"']) := by
  unfold unquote? at h
  split at h
  · split_ifs at h with hlast
    obtain ⟨front, hfront⟩ := List.getLast?_eq_some_iff.1 hlast
    rw [hfront, List.dropLast_concat] at h
    rw [hfront, Option.some.inj h]
  · cases h

/-- a string is its text between quotation marks and nothing else -/
theorem ofToken_eq_string_iff {t s : String} : ofToken t = .string s ↔ t = "\"" ++ s ++ "\"" := by
  constructor
  · intro h
    unfold ofToken at h
    split at h
    · cases h
    · split at h
      · next cs hcs =>
        cases h
        rw [← String.toList_inj, Token.toList_literal, String.toList_ofList]
        exact eq_quoted_of_unquote? hcs
      · cases h
  · rintro rfl
    rw [← ofToken_quoted s, ← Token.toList_literal, String.ofList_toList]

end Atom

namespace Datum

variable {source s : String}

/-- the atoms in the forms of a text are those of its tokens -/
theorem atom_mem_ofSource_iff {a : Atom} :
    .atom a ∈ leavesAll (ofSource source) ↔ ∃ t ∈ Token.scan source, ¬ Token.IsParen t ∧ Atom.ofToken t = a := by
  rw [ofSource, leavesAll_readAll]
  simp [and_assoc]

/-- a string is read where its literal is a token -/
theorem mem_scan_of_string (h : .atom (.string s) ∈ leavesAll (ofSource source)) :
    "\"" ++ s ++ "\"" ∈ Token.scan source := by
  obtain ⟨t, ht, -, hatom⟩ := atom_mem_ofSource_iff.1 h
  rwa [← Atom.ofToken_eq_string_iff.1 hatom]

/-- a literal that is a token by itself -/
theorem ofSource_of_scan_literal (h : Token.scan source = ["\"" ++ s ++ "\""]) :
    ofSource source = [.atom (.string s)] ∧ ∀ limit, Token.nestedWithin limit (Token.scan source) = true := by
  have hparen : ¬ Token.IsParen ("\"" ++ s ++ "\"") := by
    rintro (h | h) <;> simpa using congrArg String.toList h
  have hsigns : (Token.scan source).map Sign.ofToken = signsAll [.atom (.string s)] := by
    rw [h, List.map_singleton, Sign.ofToken_atom hparen, Atom.ofToken_eq_string_iff.2 rfl]
    rfl
  refine ⟨readAll_of_signs hsigns, fun limit => ?_⟩
  have hstep : Token.depthStep 0 ("\"" ++ s ++ "\"") = 0 := by
    rw [Token.depthStep, if_neg fun h => hparen (.inl h), if_neg fun h => hparen (.inr h)]
  rw [Token.nestedWithin_iff, h, Token.within_cons_eq_iff, hstep]
  exact ⟨Nat.zero_le _, rfl⟩

end Datum

/-- **What a literal keeps.** A text without quotation marks, written between two of them, is one token just if the text
is kept: no blank but the space is in it, and nothing that clashes with the mark for a space. Just then it is read, in
every world and with any limits, as one string, which is the text. And if another blank is in it, what is read holds no
string at all. -/
theorem literal_is_kept_iff {s : String} (h : '"' ∉ s.toList) :
    (Token.scan ("\"" ++ s ++ "\"") = ["\"" ++ s ++ "\""] ↔ Token.Kept s) ∧
      (∀ limits w, (Program.read limits ("\"" ++ s ++ "\"") w).1 = .ok [.atom (.string s)] ↔ Token.Kept s) ∧
      ((∃ c ∈ s.toList, Text.isBlank c = true ∧ c ≠ ' ') →
        ∀ t, Datum.atom (.string t) ∉ Datum.leavesAll (Datum.ofSource ("\"" ++ s ++ "\""))) := by
  refine ⟨⟨fun hscan => ?_, Token.scan_literal_of_kept h⟩, fun limits w => ⟨fun hread => ?_, fun hkept => ?_⟩, ?_⟩
  · refine (Token.mem_scan_literal_iff h).1 ?_
    rw [hscan]
    exact List.mem_singleton_self _
  · rw [Program.outcome_read] at hread
    split_ifs at hread with hnested
    refine (Token.mem_scan_literal_iff h).1 (Datum.mem_scan_of_string ?_)
    rw [Except.ok.inj hread]
    exact List.mem_singleton_self _
  · obtain ⟨hforms, hnested⟩ := Datum.ofSource_of_scan_literal (Token.scan_literal_of_kept h hkept)
    rw [Program.outcome_read, if_pos (hnested _), hforms]
  · rintro ⟨c, hc, hblank, hspace⟩ t ht
    have hcount := Token.count_quote_of_cut h hc hblank hspace _ (Datum.mem_scan_of_string ht)
    rw [Token.toList_literal, List.count_cons_self, List.count_append] at hcount
    simp at hcount

/-- parentheses and spaces are kept, and the outer character of the mark, too; but not in front of the letters of the
mark and a space; and at a tab the literal is cut -/
theorem spaces_and_parentheses_are_kept :
    let kept := " a  (b)\x00 space\x00"
    let clashing := "\x00space "
    let cut := "(\t)"
    ('"' ∉ kept.toList ∧ Token.scan ("\"" ++ kept ++ "\"") = ["\"" ++ kept ++ "\""]) ∧
      ('"' ∉ clashing.toList ∧ Token.scan ("\"" ++ clashing ++ "\"") ≠ ["\"" ++ clashing ++ "\""]) ∧
      ('"' ∉ cut.toList ∧ ∀ t, Datum.atom (.string t) ∉ Datum.leavesAll (Datum.ofSource ("\"" ++ cut ++ "\""))) := by
  intro kept clashing cut
  have hkept : '"' ∉ kept.toList := by decide
  have hclashing : '"' ∉ clashing.toList := by decide
  have hcut : '"' ∉ cut.toList := by decide
  have hsafe : Token.Kept kept := by decide
  have htab : ∃ c ∈ cut.toList, Text.isBlank c = true ∧ c ≠ ' ' := ⟨'\t', by decide⟩
  have hmarks : Token.Clashes clashing.toList := by decide
  refine ⟨⟨hkept, (literal_is_kept_iff hkept).1.2 hsafe⟩, ⟨hclashing, fun hscan => ?_⟩, hcut,
    (literal_is_kept_iff hcut).2.2 htab⟩
  exact ((literal_is_kept_iff hclashing).1.1 hscan).marks hmarks

/-- it is not so that every text is kept -/
theorem literal_with_tab_is_cut :
    ¬ ∀ s : String, '"' ∉ s.toList → Token.scan ("\"" ++ s ++ "\"") = ["\"" ++ s ++ "\""] ∧
      ∀ w, (Program.read .standard ("\"" ++ s ++ "\"") w).1 = .ok [.atom (.string s)] := by
  intro h
  exact absurd (h "a\tb" (by decide)).1 (by decide)

end FrameLisp
