/-
Printed numbers are numerals.

The text of a number is a sign and digits with a point and an exponent in one of a few layouts. Each layout is a
numeral, and the numeral stands for the decimal that was laid out. As the shortest decimal lies in the interval of the
number, reading the numeral gives the number again.

Results:
- `Numeral.ofChars?_whole`, `Numeral.ofChars?_point`: how a text is taken apart that is laid out in one of the two ways.
- `Decimal.spells_layout`: in each layout the numeral stands for the digits at their places.
- `Number.displayText_reads_back`: the text of a finite number is a numeral, read as a number equal to it.
- `Numeral.isWord_of_ofChars?`: a numeral is a word.
-/
import FrameLisp.Number.Written
import FrameLisp.Proofs.Number.Nearest
import FrameLisp.Proofs.Token.Layout

namespace FrameLisp

namespace Numeral

/-! ## Digits -/

/-- nothing but digits -/
def AllDigits (ds : List Char) : Prop := ∀ c ∈ ds, c.isDigit = true

namespace AllDigits

variable {ds es : List Char}

theorem append (hds : AllDigits ds) (hes : AllDigits es) : AllDigits (ds ++ es) :=
  List.forall_mem_append.2 ⟨hds, hes⟩

theorem zeros (n : ℕ) : AllDigits (List.replicate n '0') := by
  intro c hc
  rw [List.eq_of_mem_replicate hc]
  rfl

theorem toDigits (n : ℕ) : AllDigits (Nat.toDigits 10 n) :=
  fun _ hc => Nat.isDigit_of_mem_toDigits (by norm_num) le_rfl hc

theorem take (hds : AllDigits ds) (n : ℕ) : AllDigits (ds.take n) := fun c hc => hds c (List.mem_of_mem_take hc)

theorem drop (hds : AllDigits ds) (n : ℕ) : AllDigits (ds.drop n) := fun c hc => hds c (List.mem_of_mem_drop hc)

/-- the digits in front of something else -/
theorem takeWhile_append (hds : AllDigits ds) {rest : List Char} (hrest : ∀ c ∈ rest.head?, c.isDigit = false) :
    (ds ++ rest).takeWhile Char.isDigit = ds := by
  rw [List.takeWhile_append_of_pos hds]
  cases rest with
  | nil => rw [List.takeWhile_nil, List.append_nil]
  | cons c rest => rw [List.takeWhile_cons, hrest c rfl, if_neg Bool.false_ne_true, List.append_nil]

theorem dropWhile_append (hds : AllDigits ds) {rest : List Char} (hrest : ∀ c ∈ rest.head?, c.isDigit = false) :
    (ds ++ rest).dropWhile Char.isDigit = rest := by
  rw [List.dropWhile_append_of_pos hds]
  cases rest with
  | nil => rfl
  | cons c rest => rw [List.dropWhile_cons, hrest c rfl, if_neg Bool.false_ne_true]

end AllDigits

theorem natOfDigits_append (front back : List Char) :
    natOfDigits (front ++ back) = natOfDigits front * 10 ^ back.length + natOfDigits back := by
  change Nat.ofDigitChars 10 (front ++ back) 0 = Nat.ofDigitChars 10 front 0 * _ + Nat.ofDigitChars 10 back 0
  rw [Nat.ofDigitChars_append, Nat.ofDigitChars_eq_ofDigitChars_zero, mul_comm]

theorem natOfDigits_zeros (n : ℕ) : natOfDigits (List.replicate n '0') = 0 := by
  change Nat.ofDigitChars 10 (List.replicate n '0') 0 = 0
  rw [Nat.ofDigitChars_replicate_zero, mul_zero]

theorem natOfDigits_toDigits (n : ℕ) : natOfDigits (Nat.toDigits 10 n) = n :=
  Nat.ofDigitChars_toDigits (by norm_num) le_rfl

/-- zeros in front count nothing -/
theorem natOfDigits_zeros_append (n : ℕ) (ds : List Char) :
    natOfDigits (List.replicate n '0' ++ ds) = natOfDigits ds := by
  rw [natOfDigits_append, natOfDigits_zeros, zero_mul, zero_add]

/-- each zero at the end is a power of ten -/
theorem natOfDigits_append_zeros (ds : List Char) (n : ℕ) :
    natOfDigits (ds ++ List.replicate n '0') = natOfDigits ds * 10 ^ n := by
  rw [natOfDigits_append, natOfDigits_zeros, List.length_replicate, add_zero]

/-! ## Taking apart -/

/-- a sign in front of a digit -/
theorem takeSign_signText (negative : Bool) {c : Char} (hc : c.isDigit = true) (cs : List Char) :
    takeSign ((signText negative).toList ++ c :: cs) = (negative, c :: cs) := by
  cases negative with
  | true => rfl
  | false =>
    have hminus : c ≠ '-' := by rintro rfl; exact absurd hc (by decide)
    have hplus : c ≠ '+' := by rintro rfl; exact absurd hc (by decide)
    change takeSign (c :: cs) = (false, c :: cs)
    rw [takeSign]
    · rintro _ ⟨⟩
      exact hminus rfl
    · rintro _ ⟨⟩
      exact hplus rfl

/-- what follows the digits of a numeral is neither a digit nor a point -/
theorem head_of_exponentOf? {tail : List Char} {e : ℤ} (h : exponentOf? tail = some e) :
    ∀ c ∈ tail.head?, c.isDigit = false ∧ c ≠ '.' := by
  intro c hc
  cases tail with
  | nil => cases hc
  | cons d tail =>
    obtain rfl : d = c := by simpa using hc
    rw [exponentOf?] at h
    split at h
    · next hletter =>
      rw [Bool.or_eq_true, beq_iff_eq, beq_iff_eq] at hletter
      rcases hletter with rfl | rfl <;> decide
    · cases h

theorem exponentOf?_power (negative : Bool) {ds : List Char} (hds : AllDigits ds) (hne : ds ≠ []) :
    exponentOf? ('e' :: (if negative then '-' else '+') :: ds)
      = some (if negative then -(natOfDigits ds : ℤ) else natOfDigits ds) := by
  have hall : ds.all Char.isDigit = true := List.all_eq_true.2 hds
  have hsome : ds.isEmpty = false := by simpa using hne
  cases negative with
  | true => simp [exponentOf?, takeSign, hall, hsome]
  | false => simp [exponentOf?, takeSign, hall, hsome]

section Parts

variable (negative : Bool) {whole fraction tail : List Char} {e : ℤ} (hwhole : AllDigits whole) (hne : whole ≠ [])
  (htail : exponentOf? tail = some e)

include hwhole hne htail

/-- digits without a point -/
theorem ofChars?_whole :
    ofChars? ((signText negative).toList ++ (whole ++ tail)) = some ⟨negative, natOfDigits whole, e⟩ := by
  have hnext := head_of_exponentOf? htail
  have hstop : ∀ c ∈ tail.head?, c.isDigit = false := fun c hc => (hnext c hc).1
  have hsign : takeSign ((signText negative).toList ++ (whole ++ tail)) = (negative, whole ++ tail) := by
    cases whole with
    | nil => exact absurd rfl hne
    | cons c whole => exact takeSign_signText negative (hwhole c List.mem_cons_self) (whole ++ tail)
  have hpoint : takeFraction tail = ([], tail) := by
    rw [takeFraction]
    rintro rest rfl
    exact (hnext '.' rfl).2 rfl
  have hsome : whole.isEmpty = false := by simpa using hne
  simp [ofChars?, hsign, hwhole.takeWhile_append hstop, hwhole.dropWhile_append hstop, hpoint, hsome, htail]

/-- digits around a point -/
theorem ofChars?_point (hfraction : AllDigits fraction) :
    ofChars? ((signText negative).toList ++ (whole ++ '.' :: (fraction ++ tail)))
      = some ⟨negative, natOfDigits (whole ++ fraction), e - fraction.length⟩ := by
  have hnext := head_of_exponentOf? htail
  have hstop : ∀ c ∈ tail.head?, c.isDigit = false := fun c hc => (hnext c hc).1
  have hsign : takeSign ((signText negative).toList ++ (whole ++ '.' :: (fraction ++ tail)))
      = (negative, whole ++ '.' :: (fraction ++ tail)) := by
    cases whole with
    | nil => exact absurd rfl hne
    | cons c whole => exact takeSign_signText negative (hwhole c List.mem_cons_self) _
  have hdot : ∀ c ∈ ('.' :: (fraction ++ tail)).head?, c.isDigit = false := by
    rintro c ⟨⟩
    rfl
  have hsome : whole.isEmpty = false := by simpa using hne
  simp [ofChars?, hsign, hwhole.takeWhile_append hdot, hwhole.dropWhile_append hdot, takeFraction,
    hfraction.takeWhile_append hstop, hfraction.dropWhile_append hstop, hsome, htail]

end Parts

/-- whether a text, after its sign, is a numeral that stands for `v` -/
def Spells (negative : Bool) (text : List Char) (v : ℚ) : Prop :=
  ∃ n, ofChars? ((signText negative).toList ++ text) = some n ∧ n.negative = negative ∧ n.value = v

theorem exponentOf?_nil : exponentOf? [] = some 0 := rfl

/-! ## Numerals are words -/

/-- the characters that numerals are made of -/
def IsNumeric (c : Char) : Prop := c.isDigit = true ∨ c ∈ ['+', '-', '.', 'e', 'E']

theorem isNumeric_of_mem_takeWhile {c : Char} {cs : List Char} (h : c ∈ cs.takeWhile Char.isDigit) : IsNumeric c :=
  .inl (List.all_eq_true.1 List.all_takeWhile c h)

/-- once what follows the sign is numeric, all is -/
theorem isNumeric_of_takeSign {cs : List Char} (h : ∀ c ∈ (takeSign cs).2, IsNumeric c) : ∀ c ∈ cs, IsNumeric c := by
  have hsigns : IsNumeric '-' ∧ IsNumeric '+' := ⟨.inr (by decide), .inr (by decide)⟩
  fun_cases takeSign cs with
  | case1 cs => exact List.forall_mem_cons.2 ⟨hsigns.1, h⟩
  | case2 cs => exact List.forall_mem_cons.2 ⟨hsigns.2, h⟩
  | case3 cs _ _ => simpa [takeSign] using h

theorem isNumeric_of_takeFraction {cs : List Char} (h : ∀ c ∈ (takeFraction cs).2, IsNumeric c) :
    ∀ c ∈ cs, IsNumeric c := by
  fun_cases takeFraction cs with
  | case1 cs =>
    refine List.forall_mem_cons.2 ⟨.inr (by decide), fun c hc => ?_⟩
    rw [← List.takeWhile_append_dropWhile (p := Char.isDigit) (l := cs)] at hc
    rcases List.mem_append.1 hc with hc | hc
    · exact isNumeric_of_mem_takeWhile hc
    · exact h c hc
  | case2 cs _ => simpa [takeFraction] using h

theorem isNumeric_of_exponentOf? {cs : List Char} {e : ℤ} (h : exponentOf? cs = some e) : ∀ c ∈ cs, IsNumeric c := by
  cases cs with
  | nil => exact fun c hc => absurd hc List.not_mem_nil
  | cons c cs =>
    simp only [exponentOf?] at h
    split at h
    · next hletter =>
      have hc : IsNumeric c := by
        rw [Bool.or_eq_true, beq_iff_eq, beq_iff_eq] at hletter
        rcases hletter with rfl | rfl
        · exact .inr (by decide)
        · exact .inr (by decide)
      split at h
      · next hdigits =>
        have hall := List.all_eq_true.1 (Bool.and_eq_true_iff.1 hdigits).2
        exact List.forall_mem_cons.2 ⟨hc, isNumeric_of_takeSign fun d hd => .inl (hall d hd)⟩
      · cases h
    · cases h

theorem isNumeric_of_ofChars? {cs : List Char} {n : Numeral} (h : ofChars? cs = some n) : ∀ c ∈ cs, IsNumeric c := by
  simp only [ofChars?] at h
  split at h
  · cases h
  · obtain ⟨e, he, -⟩ := Option.map_eq_some_iff.1 h
    have htail := isNumeric_of_takeFraction (isNumeric_of_exponentOf? he)
    refine isNumeric_of_takeSign fun c hc => ?_
    rw [← List.takeWhile_append_dropWhile (p := Char.isDigit) (l := (takeSign cs).2)] at hc
    rcases List.mem_append.1 hc with hc | hc
    · exact isNumeric_of_mem_takeWhile hc
    · exact htail c hc

theorem IsNumeric.plain {c : Char} (h : IsNumeric c) :
    Text.isBlank c = false ∧ c ≠ '(' ∧ c ≠ ')' ∧ c ≠ '"' ∧ c ≠ '\x00' := by
  rcases h with hdigit | hother
  · have hrange : 48 ≤ c.toNat ∧ c.toNat ≤ 57 := by
      simpa [Char.isDigit, Char.le_def, UInt32.le_iff_toNat_le] using hdigit
    have hblank : Text.isBlank c = false := by
      simp only [Text.isBlank, Bool.or_eq_false_iff, Bool.and_eq_false_iff, decide_eq_false_iff_not,
        beq_eq_false_iff_ne]
      omega
    refine ⟨hblank, ?_, ?_, ?_, ?_⟩ <;>
    · rintro rfl
      exact absurd hdigit (by decide)
  · simp only [List.mem_cons, List.not_mem_nil, or_false] at hother
    rcases hother with rfl | rfl | rfl | rfl | rfl <;> decide

/-- a numeral is a word -/
theorem isWord_of_ofChars? {t : String} {n : Numeral} (h : ofChars? t.toList = some n) : Token.IsWord t := by
  refine ⟨?_, fun c hc => (isNumeric_of_ofChars? h c hc).plain⟩
  rintro rfl
  cases h

end Numeral

/-! ## Layouts -/

namespace Decimal

open Numeral

/-- a power of ten with its sign and at least two digits -/
theorem exponentOf?_layout (e : ℤ) :
    exponentOf? (['e', if e < 0 then '-' else '+'] ++ List.replicate (2 - (Nat.toDigits 10 e.natAbs).length) '0'
      ++ Nat.toDigits 10 e.natAbs) = some e := by
  set power := Nat.toDigits 10 e.natAbs with hpower
  have hdigits : AllDigits (List.replicate (2 - power.length) '0' ++ power) := (AllDigits.zeros _).append (.toDigits _)
  have hne : List.replicate (2 - power.length) '0' ++ power ≠ [] := by simp [hpower, Nat.toDigits_ne_nil]
  have htext := exponentOf?_power (decide (e < 0)) hdigits hne
  rw [natOfDigits_zeros_append, hpower, natOfDigits_toDigits, ← hpower] at htext
  simp only [decide_eq_true_eq] at htext
  have hvalue : (if e < 0 then -(e.natAbs : ℤ) else e.natAbs) = e := by split <;> omega
  rw [hvalue] at htext
  simpa using htext

section Layout

variable (negative : Bool) {ds : List Char} (hds : AllDigits ds) (hne : ds ≠ []) {e : ℤ}

include hds hne

/-- zeros between the point and the digits -/
theorem spells_small (he : e < 0) :
    Spells negative ('0' :: '.' :: (List.replicate (-e - 1).toNat '0' ++ ds))
      (natOfDigits ds * 10 ^ (e + 1 - ds.length)) := by
  have hfraction : AllDigits (List.replicate (-e - 1).toNat '0' ++ ds) := (AllDigits.zeros _).append hds
  have htext := ofChars?_point negative (AllDigits.zeros 1) (by decide) exponentOf?_nil hfraction
  rw [List.append_nil, natOfDigits_zeros_append, natOfDigits_zeros_append] at htext
  refine ⟨_, htext, rfl, ?_⟩
  have hplaces : (0 : ℤ) - (List.replicate (-e - 1).toNat '0' ++ ds).length = e + 1 - ds.length := by
    rw [List.length_append, List.length_replicate]
    have hlength : 0 < ds.length := List.length_pos_iff.2 hne
    omega
  rw [Numeral.value, hplaces]

/-- zeros between the digits and the point -/
theorem spells_large (he : 0 ≤ e) (hlength : ds.length ≤ e.toNat + 1) :
    Spells negative (ds ++ List.replicate (e.toNat + 1 - ds.length) '0' ++ ['.', '0'])
      (natOfDigits ds * 10 ^ (e + 1 - ds.length)) := by
  set zeros := e.toNat + 1 - ds.length with hzeros
  have hdigits : AllDigits (ds ++ List.replicate zeros '0') := hds.append (.zeros _)
  have htext := ofChars?_point negative hdigits (by simp [hne]) exponentOf?_nil (AllDigits.zeros 1)
  rw [List.append_nil, natOfDigits_append_zeros, natOfDigits_append_zeros, List.length_replicate] at htext
  refine ⟨_, htext, rfl, ?_⟩
  have hplaces : e + 1 - ds.length = zeros := by omega
  rw [Numeral.value, hplaces, zpow_natCast]
  push_cast
  ring

/-- the point among the digits -/
theorem spells_point (he : 0 ≤ e) (hlength : e.toNat + 1 < ds.length) :
    Spells negative (ds.take (e.toNat + 1) ++ '.' :: ds.drop (e.toNat + 1))
      (natOfDigits ds * 10 ^ (e + 1 - ds.length)) := by
  have htake : ds.take (e.toNat + 1) ≠ [] := by simp [hne]
  have htext := ofChars?_point negative (hds.take (e.toNat + 1)) htake exponentOf?_nil (hds.drop (e.toNat + 1))
  rw [List.append_nil, List.take_append_drop] at htext
  refine ⟨_, htext, rfl, ?_⟩
  have hplaces : (0 : ℤ) - (ds.drop (e.toNat + 1)).length = e + 1 - ds.length := by
    rw [List.length_drop]
    omega
  rw [Numeral.value, hplaces]

/-- one digit in front of the point, and a power of ten -/
theorem spells_power {power : List Char} (hpower : exponentOf? power = some e) :
    Spells negative (ds.take 1 ++ (if ds.length ≤ 1 then [] else '.' :: ds.drop 1) ++ power)
      (natOfDigits ds * 10 ^ (e + 1 - ds.length)) := by
  have hlength : 0 < ds.length := List.length_pos_iff.2 hne
  by_cases hone : ds.length ≤ 1
  · have htext := ofChars?_whole negative hds hne hpower
    rw [if_pos hone, List.append_nil, List.take_of_length_le hone]
    refine ⟨_, htext, rfl, ?_⟩
    have hplaces : e + 1 - (ds.length : ℤ) = e := by omega
    rw [Numeral.value, hplaces]
  · have htake : ds.take 1 ≠ [] := by simp [hne]
    have htext := ofChars?_point negative (hds.take 1) htake hpower (hds.drop 1)
    rw [List.take_append_drop] at htext
    rw [if_neg hone, List.append_assoc, List.cons_append]
    refine ⟨_, htext, rfl, ?_⟩
    have hplaces : e - ((ds.drop 1).length : ℤ) = e + 1 - ds.length := by
      rw [List.length_drop]
      omega
    rw [Numeral.value, hplaces]

/-- in each layout the numeral stands for the digits, the first one at the place of `10 ^ e` -/
theorem spells_layout : Spells negative (layout ds e) (natOfDigits ds * 10 ^ (e + 1 - ds.length)) := by
  rw [layout]
  by_cases hsmall : -4 ≤ e ∧ e < 0
  · rw [if_pos hsmall]
    exact spells_small negative hds hne hsmall.2
  · rw [if_neg hsmall]
    by_cases hplain : 0 ≤ e ∧ e < 16
    · simp only [if_pos hplain]
      split
      · next hlength => exact spells_large negative hds hne hplain.1 hlength
      · next hlength => exact spells_point negative hds hne hplain.1 (Nat.lt_of_not_le hlength)
    · rw [if_neg hplain]
      have htext := spells_power negative hds hne (exponentOf?_layout e)
      simp only [List.append_assoc] at htext ⊢
      exact htext

end Layout

/-- what is cut off the end of the digits of a decimal are zeros -/
theorem eq_append_zeros (ds : List Char) :
    ∃ zeros, ds = (ds.reverse.dropWhile (· == '0')).reverse ++ List.replicate zeros '0' := by
  have hzeros : ds.rtakeWhile (· == '0') = List.replicate (ds.rtakeWhile (· == '0')).length '0' :=
    List.eq_replicate_of_mem fun c hc => by simpa using List.mem_rtakeWhile_imp hc
  have hsplit : ds.rdropWhile (· == '0') ++ ds.rtakeWhile (· == '0') = ds := List.rdropWhile_append_rtakeWhile
  rw [hzeros] at hsplit
  exact ⟨_, hsplit.symm⟩

/-- the text of a decimal stands for it -/
theorem spells_text (negative : Bool) {d : Decimal} (hd : d.digits ≠ 0) : Spells negative d.text.toList d.value := by
  have hall := AllDigits.toDigits d.digits
  have hdigits := natOfDigits_toDigits d.digits
  rw [text, String.toList_ofList]
  set ds := Nat.toDigits 10 d.digits
  set kept := (ds.reverse.dropWhile (· == '0')).reverse with hkept
  obtain ⟨zeros, hzeros⟩ : ∃ zeros, ds = kept ++ List.replicate zeros '0' := eq_append_zeros ds
  have hlength : (ds.length : ℤ) = kept.length + zeros := by
    rw [hzeros, List.length_append, List.length_replicate]
    push_cast
    rfl
  have hvalue : natOfDigits kept * 10 ^ zeros = d.digits := by rw [← natOfDigits_append_zeros, ← hzeros, hdigits]
  have hne : kept ≠ [] := by
    intro hnil
    rw [hnil] at hvalue
    exact hd (hvalue.symm.trans (Nat.zero_mul _))
  have hkeptAll : AllDigits kept := fun c hc => hall c (by rw [hzeros]; exact List.mem_append_left _ hc)
  have hspells := spells_layout negative hkeptAll hne (e := d.exponent + ds.length - 1)
  have hexp : d.exponent + ds.length - 1 + 1 - kept.length = zeros + d.exponent := by omega
  rw [hexp, zpow_add₀ (by norm_num), zpow_natCast, ← mul_assoc] at hspells
  have hcast : (natOfDigits kept : ℚ) * 10 ^ zeros = d.digits := by exact_mod_cast hvalue
  rwa [hcast] at hspells

end Decimal

/-! ## Numbers -/

namespace Number

open Numeral Rounding

/-- a whole number that is a double is the double -/
theorem wholePart?_eq {m : ℕ} {q : ℤ} {n : ℕ} (h : wholePart? m q = some n) : (n : ℚ) = m * 2 ^ q := by
  rw [wholePart?] at h
  simp only [Nat.pow_eq] at h
  rw [Decimal.zpow_eq_div]
  split at h
  · next hq =>
    obtain rfl := Option.some.inj h
    have hneg : (-q).toNat = 0 := by omega
    rw [hneg, pow_zero, div_one]
    push_cast
    rfl
  · next hq =>
    split at h
    · next hrest =>
      obtain rfl := Option.some.inj h
      have hpos : q.toNat = 0 := by omega
      rw [hpos, pow_zero, Nat.cast_div (Nat.dvd_of_mod_eq_zero hrest) (by positivity)]
      push_cast
      ring
    · cases h

theorem wholePart?_zero (q : ℤ) : wholePart? 0 q = some 0 := by
  rw [wholePart?]
  split
  · rw [Nat.zero_mul]
  · rw [if_pos (Nat.zero_mod _), Nat.zero_div]

/-- a zero equals the zero that is read -/
theorem zero_beq {x : Float} {negative : Bool} {q : ℤ} (h : Binary.ofFloat x = .finite negative 0 q) :
    ((0.0 : Float) == x) = true := by
  have hx : x.toModel.unpack = .zero (signOf negative) := unpack_of_ofBits_zero (b := x.toModel.toBits.toBitVec) h
  have hbits : Binary.ofFloat 0.0 = .finite false 0 (-1074) := rfl
  have hzero : (0.0 : Float).toModel.unpack = .zero .positive := unpack_of_ofBits_zero hbits
  change (0.0 : Float).toModel.unpack.beq x.toModel.unpack = true
  rw [hx, hzero]
  cases negative <;> rfl

/-- a numeral that stands for something in the interval of a number is read as a number equal to it -/
theorem toFloat_beq {x : Float} {negative : Bool} {m : ℕ} {q : ℤ} (hx : Binary.ofFloat x = .finite negative m q)
    (hm : m ≠ 0) {n : Numeral} (hsign : n.negative = negative) (hn : (Decimal.span m q).Contains n.value) :
    (n.toFloat == x) = true := by
  obtain ⟨hdouble, hc, hq⟩ := isDouble_of_ofFloat hx hm
  have hread := toFloat_isDouble hc hq hn
  rw [hsign] at hread
  exact hread.beq hdouble

section ReadsBack

variable {x : Float} {negative : Bool} {m : ℕ} {q : ℤ} (hx : Binary.ofFloat x = .finite negative m q)

include hx

/-- a number written with a point or an exponent -/
theorem realText_reads_back (hm : m ≠ 0) :
    ∃ n, ofChars? (realText negative m q).toList = some n ∧ (n.toFloat == x) = true := by
  obtain ⟨-, hc, -⟩ := isDouble_of_ofFloat hx hm
  have hin := Decimal.shortest_contained hm hc.bits q
  have hdigits : (Decimal.shortest m q).digits ≠ 0 := by
    intro hzero
    have hpos := hc.two_pow_le hin
    rw [Decimal.value, hzero, Nat.cast_zero, zero_mul] at hpos
    exact absurd hpos (not_le.2 (by positivity))
  obtain ⟨n, htext, hsign, hvalue⟩ := Decimal.spells_text negative hdigits
  rw [← hvalue] at hin
  refine ⟨n, ?_, toFloat_beq hx hm hsign hin⟩
  rw [realText, if_neg hm, String.toList_append, htext]

/-- a whole number written like an integer, a zero without its sign -/
theorem wholeText_reads_back {n : ℕ} (hn : wholePart? m q = some n) :
    ∃ r, ofChars? (signText (negative && n != 0) ++ String.ofList (Nat.toDigits 10 n)).toList = some r ∧
      (r.toFloat == x) = true := by
  have htext := ofChars?_whole (negative && n != 0) (AllDigits.toDigits n) Nat.toDigits_ne_nil exponentOf?_nil
  rw [List.append_nil, natOfDigits_toDigits] at htext
  refine ⟨_, by rw [String.toList_append, String.toList_ofList, htext], ?_⟩
  by_cases hm : m = 0
  · rw [hm] at hx
    rw [hm, wholePart?_zero] at hn
    obtain rfl := Option.some.inj hn
    rw [bne_self_eq_false, Bool.and_false]
    exact zero_beq hx
  · have hvalue := wholePart?_eq hn
    have hne : n ≠ 0 := by
      rintro rfl
      rw [Nat.cast_zero] at hvalue
      have hpos : (0 : ℚ) < m * 2 ^ q := by
        have hcast : (0 : ℚ) < m := by exact_mod_cast Nat.pos_of_ne_zero hm
        positivity
      exact absurd hvalue hpos.ne
    have hsign : (negative && n != 0) = negative := by rw [bne_iff_ne.2 hne, Bool.and_true]
    refine toFloat_beq hx hm hsign ?_
    rw [Numeral.value, zpow_zero, mul_one, hvalue]
    exact Decimal.span_contains_self hm q

/-- **A printed number reads back.** The text of a finite number is a numeral, and is read as a number equal to it. -/
theorem displayText_reads_back : ∃ n, ofChars? (displayText x).toList = some n ∧ (n.toFloat == x) = true := by
  simp only [displayText, Style.write, hx]
  cases hwhole : wholePart? m q with
  | none =>
    refine realText_reads_back hx fun hm => ?_
    rw [hm, wholePart?_zero] at hwhole
    cases hwhole
  | some n =>
    by_cases hsmall : n < displayed.wholeBelow
    · simp only [if_pos hsmall]
      exact wholeText_reads_back hx hwhole
    · simp only [if_neg hsmall]
      refine realText_reads_back hx fun hm => hsmall ?_
      rw [hm, wholePart?_zero] at hwhole
      obtain rfl := Option.some.inj hwhole
      decide

end ReadsBack

end Number

end FrameLisp
