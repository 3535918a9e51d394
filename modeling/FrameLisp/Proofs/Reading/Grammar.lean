/-
Which tokens are numbers, which are strings, and which are names.

The grammar of numerals is given here by itself, rule by rule (`Numeral.Spelled`): a sign that may be left out, a
mantissa of digits with at most one point and at least one digit, and a power of ten that may be left out. Each rule
also says what the text it allows stands for, so the grammar has a numeral for every text that it accepts.

Results:
- `Numeral.ofChars?_eq_some_iff`: a text is taken apart into a numeral just if the grammar spells that numeral so.
- `Atom.ofToken_eq_number_iff`: a token is a number just if the grammar accepts it.
- `Atom.ofToken_eq_string_iff_quoted`: it is a string just if it has two characters or more and a quotation mark at both
  ends.
- `token_kind_follows_grammar`: the kind and the content of every token; reading a numeral always gives a number.
-/
import FrameLisp.Proofs.Number.Special
import FrameLisp.Proofs.Reading.Boundary

namespace FrameLisp

namespace Numeral

/-! ## The grammar -/

/-- digits, at least one -/
def Digits (ds : List Char) : Prop := ds ≠ [] ∧ AllDigits ds

/-- a sign that may be left out, and whether it is a minus -/
inductive SignSpelled : List Char → Bool → Prop
  | none : SignSpelled [] false
  | plus : SignSpelled ['+'] false
  | minus : SignSpelled ['-'] true

/-- digits with at most one point, the natural number that they spell without it and how many come after it -/
inductive MantissaSpelled : List Char → ℕ → ℕ → Prop
  | whole {ds} (hds : Digits ds) : MantissaSpelled ds (natOfDigits ds) 0
  | point {ds places} (hds : Digits ds) (hplaces : AllDigits places) :
    MantissaSpelled (ds ++ '.' :: places) (natOfDigits (ds ++ places)) places.length
  | fraction {places} (hplaces : Digits places) : MantissaSpelled ('.' :: places) (natOfDigits places) places.length

/-- a power of ten that may be left out -/
inductive PowerSpelled : List Char → ℤ → Prop
  | none : PowerSpelled [] 0
  | power {letter sign negative ds} (hletter : letter = 'e' ∨ letter = 'E') (hsign : SignSpelled sign negative)
    (hds : Digits ds) :
    PowerSpelled (letter :: (sign ++ ds)) (if negative then -(natOfDigits ds : ℤ) else natOfDigits ds)

/-- a text that spells a numeral -/
inductive Spelled : List Char → Numeral → Prop
  | numeral {sign mantissa power negative digits places e} (hsign : SignSpelled sign negative)
    (hmantissa : MantissaSpelled mantissa digits places) (hpower : PowerSpelled power e) :
    Spelled (sign ++ (mantissa ++ power)) ⟨negative, digits, e - places⟩

/-! ## Parts -/

/-- not a sign -/
def BeginsUnsigned (cs : List Char) : Prop := ∀ c ∈ cs.head?, c ≠ '-' ∧ c ≠ '+'

/-- a sign, however it is spelled, in front of something that does not begin with one -/
theorem takeSign_spelled {sign cs : List Char} {negative : Bool} (hsign : SignSpelled sign negative)
    (hcs : BeginsUnsigned cs) : takeSign (sign ++ cs) = (negative, cs) := by
  cases hsign with
  | plus => rfl
  | minus => rfl
  | none =>
    rw [List.nil_append, takeSign]
    · rintro rest rfl
      exact (hcs '-' rfl).1 rfl
    · rintro rest rfl
      exact (hcs '+' rfl).2 rfl

theorem exists_sign_of_takeSign {cs body : List Char} {negative : Bool} (h : takeSign cs = (negative, body)) :
    ∃ sign, SignSpelled sign negative ∧ cs = sign ++ body := by
  unfold takeSign at h
  split at h
  · obtain ⟨rfl, rfl⟩ := Prod.mk.inj h
    exact ⟨_, .minus, rfl⟩
  · obtain ⟨rfl, rfl⟩ := Prod.mk.inj h
    exact ⟨_, .plus, rfl⟩
  · obtain ⟨rfl, rfl⟩ := Prod.mk.inj h
    exact ⟨_, .none, rfl⟩

theorem beginsUnsigned_of_digits {ds : List Char} (h : Digits ds) (cs : List Char) : BeginsUnsigned (ds ++ cs) := by
  obtain ⟨hne, hds⟩ := h
  intro c hc
  cases ds with
  | nil => exact absurd rfl hne
  | cons d ds =>
    obtain rfl : d = c := by simpa using hc
    have hdigit := hds d List.mem_cons_self
    exact ⟨by rintro rfl; exact absurd hdigit (by decide), by rintro rfl; exact absurd hdigit (by decide)⟩

theorem MantissaSpelled.beginsUnsigned {mantissa : List Char} {digits places : ℕ}
    (h : MantissaSpelled mantissa digits places) (cs : List Char) : BeginsUnsigned (mantissa ++ cs) := by
  cases h with
  | whole hds => exact beginsUnsigned_of_digits hds cs
  | point hds hplaces =>
    rw [List.append_assoc]
    exact beginsUnsigned_of_digits hds _
  | fraction hplaces =>
    rintro c ⟨⟩
    decide

/-- the exponent is read off just the texts of a power of ten -/
theorem exponentOf?_eq_some_iff {cs : List Char} {e : ℤ} : exponentOf? cs = some e ↔ PowerSpelled cs e := by
  constructor
  · intro h
    cases cs with
    | nil =>
      cases h
      exact .none
    | cons letter cs =>
      simp only [exponentOf?] at h
      split at h
      · next hletter =>
        cases htake : takeSign cs with
        | mk negative ds =>
          rw [htake] at h
          split at h
          · next hdigits =>
            cases h
            obtain ⟨sign, hsign, rfl⟩ := exists_sign_of_takeSign htake
            rw [Bool.and_eq_true, List.all_eq_true] at hdigits
            exact .power (by simpa using hletter) hsign ⟨by simpa using hdigits.1, hdigits.2⟩
          · cases h
      · cases h
  · intro h
    cases h with
    | none => rfl
    | @power letter sign negative ds hletter hsign hds =>
      have htake : takeSign (sign ++ ds) = (negative, ds) := by
        have hunsigned := beginsUnsigned_of_digits hds []
        rw [List.append_nil] at hunsigned
        exact takeSign_spelled hsign hunsigned
      have hsome : ds.isEmpty = false := by simpa using hds.1
      have hall : ds.all Char.isDigit = true := List.all_eq_true.2 hds.2
      rcases hletter with rfl | rfl <;> simp [exponentOf?, htake, hsome, hall]

theorem allDigits_takeWhile (cs : List Char) : AllDigits (cs.takeWhile Char.isDigit) :=
  fun _ hc => List.all_eq_true.1 List.all_takeWhile _ hc

/-- what comes before the power of ten is a mantissa -/
theorem mantissaSpelled_of_takeFraction {body fraction tail : List Char}
    (hfraction : takeFraction (body.dropWhile Char.isDigit) = (fraction, tail))
    (hsome : ¬ (body.takeWhile Char.isDigit = [] ∧ fraction = [])) :
    ∃ mantissa, MantissaSpelled mantissa (natOfDigits (body.takeWhile Char.isDigit ++ fraction)) fraction.length ∧
      body = mantissa ++ tail := by
  have hbody := (List.takeWhile_append_dropWhile (p := Char.isDigit) (l := body)).symm
  have hwhole := allDigits_takeWhile body
  generalize body.takeWhile Char.isDigit = whole at hbody hwhole hsome ⊢
  generalize body.dropWhile Char.isDigit = rest at hbody hfraction
  unfold takeFraction at hfraction
  split at hfraction
  · next cs =>
    obtain ⟨rfl, rfl⟩ := Prod.mk.inj hfraction
    have hplaces := allDigits_takeWhile cs
    have hcs := (List.takeWhile_append_dropWhile (p := Char.isDigit) (l := cs)).symm
    generalize cs.takeWhile Char.isDigit = places at *
    generalize cs.dropWhile Char.isDigit = tail at *
    subst hcs hbody
    by_cases hnone : whole = []
    · subst hnone
      exact ⟨_, .fraction ⟨fun hempty => hsome ⟨rfl, hempty⟩, hplaces⟩, rfl⟩
    · exact ⟨_, .point ⟨hnone, hwhole⟩ hplaces, by simp⟩
  · obtain ⟨rfl, rfl⟩ := Prod.mk.inj hfraction
    rw [List.append_nil]
    exact ⟨whole, .whole ⟨fun hempty => hsome ⟨hempty, rfl⟩, hwhole⟩, hbody⟩

/-- how a mantissa and what follows it are taken apart -/
theorem takeFraction_spelled {mantissa power : List Char} {digits places : ℕ} {e : ℤ}
    (hmantissa : MantissaSpelled mantissa digits places) (hpower : PowerSpelled power e) :
    ∃ fraction, takeFraction ((mantissa ++ power).dropWhile Char.isDigit) = (fraction, power) ∧
      ¬ ((mantissa ++ power).takeWhile Char.isDigit = [] ∧ fraction = []) ∧
      natOfDigits ((mantissa ++ power).takeWhile Char.isDigit ++ fraction) = digits ∧ fraction.length = places := by
  have hnext := head_of_exponentOf? (exponentOf?_eq_some_iff.2 hpower)
  have hstop : ∀ c ∈ power.head?, c.isDigit = false := fun c hc => (hnext c hc).1
  cases hmantissa with
  | whole hds =>
    have hpoint : takeFraction power = ([], power) := by
      rw [takeFraction]
      rintro rest rfl
      exact (hnext '.' rfl).2 rfl
    rw [hds.2.takeWhile_append hstop, hds.2.dropWhile_append hstop]
    exact ⟨[], hpoint, fun h => hds.1 h.1, by rw [List.append_nil], rfl⟩
  | @point ds places hds hplaces =>
    have hdot : ∀ c ∈ ('.' :: (places ++ power)).head?, c.isDigit = false := by
      rintro c ⟨⟩
      rfl
    rw [List.append_assoc, List.cons_append, hds.2.takeWhile_append hdot, hds.2.dropWhile_append hdot, takeFraction,
      hplaces.takeWhile_append hstop, hplaces.dropWhile_append hstop]
    exact ⟨places, rfl, fun h => hds.1 h.1, rfl, rfl⟩
  | @fraction places hplaces =>
    have hdot : ('.' : Char).isDigit = false := rfl
    rw [List.cons_append, List.takeWhile_cons, List.dropWhile_cons, hdot, if_neg Bool.false_ne_true,
      if_neg Bool.false_ne_true, takeFraction, hplaces.2.takeWhile_append hstop, hplaces.2.dropWhile_append hstop]
    exact ⟨places, rfl, fun h => hplaces.1 h.2, rfl, rfl⟩

/-! ## Whole numerals -/

/-- **The grammar of numerals.** A text is taken apart into a numeral just if the grammar spells that numeral so. -/
theorem ofChars?_eq_some_iff {cs : List Char} {n : Numeral} : ofChars? cs = some n ↔ Spelled cs n := by
  constructor
  · intro h
    simp only [ofChars?] at h
    cases hsign : takeSign cs with
    | mk negative body =>
      cases hfraction : takeFraction (body.dropWhile Char.isDigit) with
      | mk fraction tail =>
        rw [hsign] at h
        simp only [hfraction] at h
        split at h
        · cases h
        · next hsome =>
          obtain ⟨e, he, rfl⟩ := Option.map_eq_some_iff.1 h
          obtain ⟨sign, hsigned, rfl⟩ := exists_sign_of_takeSign hsign
          obtain ⟨mantissa, hmantissa, rfl⟩ := mantissaSpelled_of_takeFraction hfraction (by simpa using hsome)
          exact .numeral hsigned hmantissa (exponentOf?_eq_some_iff.1 he)
  · rintro ⟨hsign, hmantissa, hpower⟩
    obtain ⟨fraction, hfraction, hsome, rfl, rfl⟩ := takeFraction_spelled hmantissa hpower
    simp only [ofChars?, takeSign_spelled hsign (hmantissa.beginsUnsigned _), hfraction]
    rw [if_neg (by simpa using hsome), exponentOf?_eq_some_iff.2 hpower]
    rfl

example : Spelled "-.5E3".toList ⟨true, 5, 2⟩ := ofChars?_eq_some_iff.1 (by decide)

end Numeral

/-! ## Tokens -/

namespace Atom

/-- two characters or more, with a quotation mark at both ends -/
def Quoted (t : String) : Prop := 2 ≤ t.length ∧ t.toList.head? = some '"' ∧ t.toList.getLast? = some '"'

/-- what is left of a quoted text without its first and last character is what stands between the marks -/
theorem quoted_and_content_iff {t s : String} :
    Quoted t ∧ s.toList = t.toList.tail.dropLast ↔ t = "\"" ++ s ++ "\"" := by
  rw [← String.toList_inj, Token.toList_literal]
  constructor
  · rintro ⟨⟨hlength, hhead, hlast⟩, hs⟩
    rw [← String.length_toList] at hlength
    obtain ⟨rest, hrest⟩ := List.head?_eq_some_iff.1 hhead
    rw [hrest] at hlength hlast hs ⊢
    have hne : rest ≠ [] := by
      rintro rfl
      simp at hlength
    have hend : rest.getLast hne = '"' := by simpa [List.getLast?_cons, List.getLast?_eq_some_getLast hne] using hlast
    rw [hs, List.tail_cons, ← hend, List.dropLast_concat_getLast hne]
  · intro ht
    rw [Quoted, ← String.length_toList, ht]
    refine ⟨⟨by simp, rfl, ?_⟩, ?_⟩
    · rw [← List.cons_append, List.getLast?_concat]
    · rw [List.tail_cons, List.dropLast_concat]

/-- a token is a number just if it is a numeral, and then the double that is read for the numeral -/
theorem ofToken_eq_number_iff {t : String} {x : Float} :
    ofToken t = .number x ↔ ∃ n, Numeral.Spelled t.toList n ∧ n.toFloat = x := by
  simp only [← Numeral.ofChars?_eq_some_iff]
  constructor
  · intro h
    unfold ofToken at h
    split at h
    · next n hn => exact ⟨n, hn, number.inj h⟩
    · split at h <;> cases h
  · rintro ⟨n, hn, rfl⟩
    rw [ofToken, hn]

theorem ofToken_eq_string_iff_quoted {t s : String} :
    ofToken t = .string s ↔ Quoted t ∧ s.toList = t.toList.tail.dropLast := by
  rw [quoted_and_content_iff, ofToken_eq_string_iff]

theorem quoted_iff_string {t : String} : Quoted t ↔ ∃ s, ofToken t = .string s := by
  simp only [ofToken_eq_string_iff_quoted]
  exact ⟨fun h => ⟨String.ofList t.toList.tail.dropLast, h, String.toList_ofList⟩, fun ⟨_, h, _⟩ => h⟩

end Atom

/-- **The kind of a token.** For every text: as a token it is a number just if the grammar of numerals accepts it, and
then it is read as the double of its numeral, which is a number. It is a string just if it has two characters or more
and a quotation mark at both ends, and then it is the text between them. Everything else is a name, as it stands. -/
theorem token_kind_follows_grammar (t : String) :
    ((∃ x, Atom.ofToken t = .number x) ↔ ∃ n, Numeral.Spelled t.toList n) ∧
      (∀ n, Numeral.Spelled t.toList n →
        Atom.ofToken t = .number n.toFloat ∧ Binary.ofFloat n.toFloat ≠ .notANumber) ∧
      (∀ s, Atom.ofToken t = .string s ↔ Atom.Quoted t ∧ s.toList = t.toList.tail.dropLast) ∧
      (∀ name, Atom.ofToken t = .identifier name ↔
        name = t ∧ (¬ ∃ n, Numeral.Spelled t.toList n) ∧ ¬ Atom.Quoted t) := by
  have hnumber : (∃ x, Atom.ofToken t = .number x) ↔ ∃ n, Numeral.Spelled t.toList n := by
    simp only [Atom.ofToken_eq_number_iff]
    exact ⟨fun ⟨_, n, hn, _⟩ => ⟨n, hn⟩, fun ⟨n, hn⟩ => ⟨_, n, hn, rfl⟩⟩
  refine ⟨hnumber, fun n hn => ⟨Atom.ofToken_eq_number_iff.2 ⟨n, hn, rfl⟩, n.toFloat_isNumber⟩,
    fun s => Atom.ofToken_eq_string_iff_quoted, fun name => ?_⟩
  rw [← hnumber, Atom.quoted_iff_string]
  constructor
  · intro h
    refine ⟨(Atom.eq_of_ofToken_identifier h).symm, ?_, ?_⟩
    · rintro ⟨x, hx⟩
      cases h.symm.trans hx
    · rintro ⟨s, hs⟩
      cases h.symm.trans hs
  · rintro ⟨rfl, hnone, hunquoted⟩
    cases hkind : Atom.ofToken name with
    | number x => exact absurd ⟨x, hkind⟩ hnone
    | string s => exact absurd ⟨s, hkind⟩ hunquoted
    | identifier other => rw [Atom.eq_of_ofToken_identifier hkind]

end FrameLisp
