/-
Blank characters, and the words between them.

A blank is a character that separates words: the white space and separator characters of the standard character
set, the four information separators included. `words` are the longest runs of other characters, so no word is
empty or holds a blank (`words_nonempty`, `words_blank`), and a blank between two texts keeps their words apart
(`words_append_blank`, `words_word_append`). `strip` takes the blanks off both ends.
-/

namespace FrameLisp.Text

/-- the characters that separate words -/
def isBlank (c : Char) : Bool :=
  let n := c.toNat
  (9 ≤ n && n ≤ 13) || (28 ≤ n && n ≤ 32) || n == 0x85 || n == 0xA0 || n == 0x1680 || (0x2000 ≤ n && n ≤ 0x200A)
    || n == 0x2028 || n == 0x2029 || n == 0x202F || n == 0x205F || n == 0x3000

/-- the words of a text: its longest runs without a blank -/
def words (cs : List Char) : List (List Char) :=
  (cs.splitOnP isBlank).filter (!·.isEmpty)

/-- a text of nothing but blanks -/
def IsGap (s : String) : Prop := ∀ c ∈ s.toList, isBlank c = true

instance (s : String) : Decidable (IsGap s) := List.decidableBAll (isBlank · = true) s.toList

theorem isGap_empty : IsGap "" := by decide

/-- the text without the blanks at its two ends -/
def strip (cs : List Char) : List Char :=
  ((cs.dropWhile isBlank).reverse.dropWhile isBlank).reverse

/-- a piece between separators holds characters of the text, and none of them separates -/
theorem mem_splitOnP {p : Char → Bool} {cs piece : List Char} (h : piece ∈ cs.splitOnP p) :
    ∀ c ∈ piece, c ∈ cs ∧ p c = false := by
  induction cs generalizing piece with
  | nil => simp_all
  | cons d cs ih =>
    intro c hc
    rw [List.splitOnP_cons_eq_if_modifyHead] at h
    cases hd : p d with
    | true =>
      rw [if_pos hd] at h
      rcases List.mem_cons.1 h with rfl | h
      · cases hc
      · exact (ih h c hc).imp_left (List.mem_cons_of_mem _)
    | false =>
      rw [if_neg (by simp [hd])] at h
      cases hsplit : cs.splitOnP p with
      | nil => exact absurd hsplit (List.splitOnP_ne_nil p cs)
      | cons first pieces =>
        rw [hsplit, List.modifyHead_cons] at h
        rcases List.mem_cons.1 h with rfl | h
        · rcases List.mem_cons.1 hc with rfl | hc
          · exact ⟨List.mem_cons_self .., hd⟩
          · exact (ih (hsplit ▸ List.mem_cons_self ..) c hc).imp_left (List.mem_cons_of_mem _)
        · exact (ih (hsplit ▸ List.mem_cons_of_mem _ h) c hc).imp_left (List.mem_cons_of_mem _)

theorem words_nonempty (cs : List Char) : ∀ w ∈ words cs, w ≠ [] := by
  intro w hw
  simpa using (List.mem_filter.1 hw).2

theorem mem_of_mem_words {cs w : List Char} (h : w ∈ words cs) : ∀ c ∈ w, c ∈ cs :=
  fun c hc => (mem_splitOnP (List.mem_filter.1 h).1 c hc).1

theorem words_blank (cs : List Char) : ∀ w ∈ words cs, ∀ c ∈ w, isBlank c = false :=
  fun _ hw c hc => (mem_splitOnP (List.mem_filter.1 hw).1 c hc).2

/-- a blank between two texts keeps their words apart -/
theorem words_append_blank {c : Char} (h : isBlank c = true) (front back : List Char) :
    words (front ++ c :: back) = words front ++ words back := by
  rw [words, List.splitOnP_append_cons _ _ h, List.filter_append]
  rfl

theorem words_cons_blank {c : Char} (h : isBlank c = true) (cs : List Char) : words (c :: cs) = words cs := by
  simpa [words] using words_append_blank h [] cs

/-- a text without blanks is one word, unless it is empty -/
theorem words_of_no_blank {cs : List Char} (hne : cs ≠ []) (h : ∀ c ∈ cs, isBlank c = false) : words cs = [cs] := by
  rw [words, List.splitOnP_eq_singleton h]
  simp [hne]

/-- blanks in front of a text are no part of its words -/
theorem words_blanks_append {gap : List Char} (h : ∀ c ∈ gap, isBlank c = true) (cs : List Char) :
    words (gap ++ cs) = words cs := by
  induction gap with
  | nil => rfl
  | cons c gap ih =>
    rw [List.cons_append, words_cons_blank (h c List.mem_cons_self)]
    exact ih fun d hd => h d (List.mem_cons_of_mem _ hd)

/-- a text without blanks in front of a blank, or of nothing, is the first word -/
theorem words_word_append {word rest : List Char} (hne : word ≠ []) (hword : ∀ c ∈ word, isBlank c = false)
    (hrest : ∀ c ∈ rest.head?, isBlank c = true) : words (word ++ rest) = word :: words rest := by
  cases rest with
  | nil => rw [List.append_nil, words_of_no_blank hne hword]; rfl
  | cons c rest =>
    have hc : isBlank c = true := hrest c rfl
    rw [words_append_blank hc, words_of_no_blank hne hword, words_cons_blank hc]
    rfl

end FrameLisp.Text
