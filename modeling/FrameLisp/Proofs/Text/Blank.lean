/-
Texts that are blank, and pieces between separators.

Stripping leaves nothing of a text just if all of it is blank (`strip_eq_nil_iff`). Every character of a text separates
its pieces or stands in one of them (`mem_piece`), so the pieces are blank just if the text has nothing else in it than
blanks and separators (`pieces_blank_iff`).
-/
import FrameLisp.Text.Blank
import Mathlib.Data.List.TakeWhile

namespace FrameLisp.Text

theorem strip_eq_nil_iff {cs : List Char} : strip cs = [] ↔ ∀ c ∈ cs, isBlank c = true := by
  rw [strip, List.reverse_eq_nil_iff, List.dropWhile_eq_nil_iff]
  simp only [List.mem_reverse]
  constructor
  · intro h
    by_contra hall
    have hkept : cs.dropWhile isBlank ≠ [] := fun hnil => hall (List.dropWhile_eq_nil_iff.1 hnil)
    -- the first character that is kept is not blank
    have hhead := List.head_dropWhile_not isBlank hkept
    rw [h _ (List.head_mem hkept)] at hhead
    cases hhead
  · intro h c hc
    exact h c ((List.dropWhile_sublist _).subset hc)

/-- a character of a text separates its pieces or stands in one of them -/
theorem mem_piece {p : Char → Bool} {c : Char} {cs : List Char} (h : c ∈ cs) (hc : p c = false) :
    ∃ piece ∈ cs.splitOnP p, c ∈ piece := by
  induction cs with
  | nil => cases h
  | cons d cs ih =>
    rw [List.splitOnP_cons_eq_if_modifyHead]
    cases hsplit : cs.splitOnP p with
    | nil => exact absurd hsplit (List.splitOnP_ne_nil p cs)
    | cons first pieces =>
      rw [hsplit] at ih
      rcases List.mem_cons.1 h with rfl | h
      · rw [if_neg (by simp [hc]), List.modifyHead_cons]
        exact ⟨_, List.mem_cons_self, List.mem_cons_self⟩
      · obtain ⟨piece, hpiece, hmem⟩ := ih h
        split
        · exact ⟨piece, List.mem_cons_of_mem _ hpiece, hmem⟩
        · rw [List.modifyHead_cons]
          rcases List.mem_cons.1 hpiece with rfl | hpiece
          · exact ⟨_, List.mem_cons_self, List.mem_cons_of_mem _ hmem⟩
          · exact ⟨piece, List.mem_cons_of_mem _ hpiece, hmem⟩

/-- the pieces of a text are blank just if all of it is blank but the separators -/
theorem pieces_blank_iff {sep : Char} {cs : List Char} :
    (∀ piece ∈ cs.splitOn sep, ∀ c ∈ piece, isBlank c = true) ↔ ∀ c ∈ cs, c = sep ∨ isBlank c = true := by
  rw [List.splitOn_eq_splitOnP]
  constructor
  · intro h c hc
    by_cases hsep : c = sep
    · exact Or.inl hsep
    · obtain ⟨piece, hpiece, hmem⟩ := mem_piece (p := (· == sep)) hc (beq_false_of_ne hsep)
      exact Or.inr (h piece hpiece c hmem)
  · intro h piece hpiece c hmem
    obtain ⟨hc, hsep⟩ := mem_splitOnP hpiece c hmem
    exact (h c hc).resolve_left (ne_of_beq_false hsep)

end FrameLisp.Text
