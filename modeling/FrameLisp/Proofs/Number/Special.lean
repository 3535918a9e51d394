/-
Numbers that are not finite, and where they come from.

A number taken apart is one of four things to arithmetic: a zero or another finite number, an infinity, or not a number.
`Binary` has the zeros among the finite numbers; otherwise the two ways of taking apart agree. From this follows what a
quotient is whose divisor is a zero, and that no numeral is read as something that is not a number.

Results:
- `unpack_eq`: what arithmetic sees of a number is what `Binary.ofFloat` reads off its bits.
- `Number.divide_eq`: division with its rule for a zero written out is division.
- `Number.divide_zero`: a quotient with a zero divisor, from what the dividend is and the two signs.
- `Numeral.toFloat_isNumber`: every numeral is read as a number.
-/
import FrameLisp.Proofs.Number.Nearest

namespace FrameLisp

open Float.Model Float.Model.UnpackedFloat Rounding

/-! ## Taking apart -/

namespace Binary

variable {bits : ℕ}

theorem ofBits_eq_infinite_iff {negative : Bool} :
    ofBits bits = .infinite negative ↔
      bits / 2 ^ 52 % 2 ^ 11 = 2047 ∧ bits % 2 ^ 52 = 0 ∧ decide (2 ^ 63 ≤ bits) = negative := by
  simp only [ofBits]
  split_ifs with hones hfraction <;> simp_all

theorem ofBits_eq_notANumber_iff :
    ofBits bits = .notANumber ↔ bits / 2 ^ 52 % 2 ^ 11 = 2047 ∧ ¬ bits % 2 ^ 52 = 0 := by
  simp only [ofBits]
  split_ifs with hones hfraction <;> simp_all

/-- a zero or not a number: over a zero, its quotient is not a number -/
def Indeterminate (a : Binary) : Prop := a = .notANumber ∨ ∃ negative q, a = .finite negative 0 q

/-- an infinity or a finite number other than zero, with a sign: over a zero, its quotient is an infinity -/
def Determinate (a : Binary) (negative : Bool) : Prop :=
  a = .infinite negative ∨ ∃ m q, m ≠ 0 ∧ a = .finite negative m q

end Binary

namespace Rounding

open Binary

/-- what a number taken apart is to arithmetic -/
def unpacked : Binary → UnpackedFloat
  | .notANumber => .notANumber
  | .infinite negative => .infinity (signOf negative)
  | .finite negative m q =>
    if h : m = 0 then .zero (signOf negative) else .finite (signOf negative) m q (Nat.pos_of_ne_zero h)

/-- a word whose exponent has all its bits set and that is not finite, taken apart -/
theorem unpack_of_exponent_ones {b : BitVec 64} (h : b.toNat / 2 ^ 52 % 2 ^ 11 = 2047) :
    UnpackedFloat.unpack Format.binary64 b
      = if b.toNat % 2 ^ 52 = 0 then .infinity (signOf (decide (2 ^ 63 ≤ b.toNat))) else .notANumber := by
  have hones := (exponent_eq_ones b).2 h
  simp only [UnpackedFloat.unpack, if_pos hones, ofBitVec_unpackSign]
  exact if_congr (mantissa_eq_zero b) rfl rfl

/-- arithmetic takes a number apart as its bits say -/
theorem unpack_eq (x : Float) : x.toModel.unpack = unpacked (Binary.ofFloat x) := by
  change UnpackedFloat.unpack Format.binary64 x.toModel.toBits.toBitVec
    = unpacked (Binary.ofBits x.toModel.toBits.toBitVec.toNat)
  generalize x.toModel.toBits.toBitVec = b
  generalize hbits : Binary.ofBits b.toNat = bits
  cases bits with
  | finite negative m q =>
    rw [unpacked]
    split
    · next hzero =>
      subst hzero
      exact unpack_of_ofBits_zero hbits
    · next hm => exact (unpack_of_ofBits hbits hm).1
  | infinite negative =>
    obtain ⟨hones, hfraction, rfl⟩ := ofBits_eq_infinite_iff.1 hbits
    rw [unpack_of_exponent_ones hones, if_pos hfraction]
    rfl
  | notANumber =>
    obtain ⟨hones, hfraction⟩ := ofBits_eq_notANumber_iff.1 hbits
    rw [unpack_of_exponent_ones hones, if_neg hfraction]
    rfl

/-- whether a number is one, as arithmetic sees it -/
theorem ofFloat_ne_notANumber_iff {x : Float} :
    Binary.ofFloat x ≠ .notANumber ↔ x.toModel.unpack ≠ .notANumber := by
  rw [unpack_eq]
  cases Binary.ofFloat x with
  | notANumber => simp [unpacked]
  | infinite negative => simp [unpacked]
  | finite negative m q =>
    by_cases hm : m = 0
    · simp [unpacked, hm]
    · simp [unpacked, hm]

/-! ## Putting together -/

/-- a word is a number unless its exponent has all its bits set and its fraction one -/
theorem unpack_packComponents_isNumber (s : Sign) {e : BitVec 11} {v : BitVec 52} (h : e = -1#11 → v = 0#52) :
    UnpackedFloat.unpack Format.binary64 (packComponents Format.binary64 s e v) ≠ .notANumber := by
  simp only [UnpackedFloat.unpack, unpackExponent_packComponents, unpackMantissa_packComponents]
  split
  · next hones =>
    rw [if_pos (h hones)]
    simp
  · split
    · split
      · simp
      · simp
    · simp

/-- what is put together from a number is one -/
theorem unpack_pack_isNumber {f : UnpackedFloat} (h : f ≠ .notANumber) : (Float.Model.pack f).unpack ≠ .notANumber := by
  change UnpackedFloat.unpack Format.binary64 (UnpackedFloat.pack Format.binary64 f) ≠ .notANumber
  cases f with
  | notANumber => exact absurd rfl h
  | infinity s => exact unpack_packComponents_isNumber s fun _ => rfl
  | zero s => exact unpack_packComponents_isNumber s fun _ => rfl
  | finite s m e hm =>
    simp only [UnpackedFloat.pack]
    split
    · exact unpack_packComponents_isNumber s fun _ => rfl
    · next hsmall =>
      split
      · refine unpack_packComponents_isNumber s fun hones => absurd ?_ hsmall
        have hexponent := congrArg BitVec.toNat hones
        have hall : (-1#11).toNat = 2047 := rfl
        have hsize : 2 ^ Format.binary64.exponentBits = 2048 := rfl
        rw [hall, BitVec.toNat_ofNat] at hexponent
        rw [hsize]
        omega
      · exact unpack_packComponents_isNumber s fun hones => absurd hones (by decide)

theorem roundWithAccuracy_isNumber (s : Sign) (m : ℕ) (e : ℤ) (a : Accuracy) :
    roundWithAccuracy Format.binary64 s m e a ≠ .notANumber := by
  simp only [roundWithAccuracy]
  split
  · simp
  · simp

namespace IsDouble

variable {x y : Float} {m₁ m₂ : ℕ} {q₁ q₂ : ℤ}

/-- products and quotients of finite numbers other than zero are numbers -/
theorem mul_isNumber (hx : IsDouble x false m₁ q₁) (hy : IsDouble y false m₂ q₂) :
    (x * y).toModel.unpack ≠ .notANumber := by
  obtain ⟨hpos₁, hx⟩ := hx
  obtain ⟨hpos₂, hy⟩ := hy
  change (Float.Model.pack (UnpackedFloat.mul Format.binary64 x.toModel.unpack y.toModel.unpack)).unpack ≠ _
  rw [hx, hy]
  exact unpack_pack_isNumber (roundWithAccuracy_isNumber _ _ _ _)

theorem div_isNumber (hx : IsDouble x false m₁ q₁) (hy : IsDouble y false m₂ q₂) :
    (x / y).toModel.unpack ≠ .notANumber := by
  obtain ⟨hpos₁, hx⟩ := hx
  obtain ⟨hpos₂, hy⟩ := hy
  change (Float.Model.pack (UnpackedFloat.div Format.binary64 x.toModel.unpack y.toModel.unpack)).unpack ≠ _
  rw [hx, hy]
  exact unpack_pack_isNumber (roundWithAccuracy_isNumber _ _ _ _)

end IsDouble

theorem neg_isNumber {x : Float} (h : x.toModel.unpack ≠ .notANumber) : (-x).toModel.unpack ≠ .notANumber := by
  change (Float.Model.pack x.toModel.unpack.neg).unpack ≠ .notANumber
  apply unpack_pack_isNumber
  cases hx : x.toModel.unpack with
  | notANumber => exact absurd hx h
  | infinity s | zero s | finite s m e hm => simp [UnpackedFloat.neg]

end Rounding

/-! ## Quotients -/

namespace Number

/-- the sign bit of a number -/
def signed (x : Float) : Bool := decide (2 ^ 63 ≤ x.toBits.toNat)

theorem eq_of_toBits {x y : Float} (h : x.toBits = y.toBits) : x = y := by
  obtain ⟨⟨_, _⟩⟩ := x
  obtain ⟨⟨_, _⟩⟩ := y
  cases h
  rfl

/-- there is one number that is not a number -/
theorem eq_notANumber_iff {x : Float} : x = notANumber ↔ Binary.ofFloat x = .notANumber := by
  constructor
  · rintro rfl
    decide
  · intro h
    obtain ⟨hones, hfraction⟩ := Binary.ofBits_eq_notANumber_iff.1 h
    have hbits := x.toModel.valid.eq_packedNaN ((exponent_eq_ones _).2 hones) (mt (mantissa_eq_zero _).1 hfraction)
    exact eq_of_toBits (UInt64.toBitVec_inj.1 hbits)

/-- there are two zeros, with a sign bit and without -/
theorem eq_zero_iff {x : Float} :
    x = 0.0 ∨ x = -0.0 ↔ Binary.ofFloat x = .finite (signed x) 0 (-1074) := by
  constructor
  · rintro (rfl | rfl) <;> decide
  · intro h
    obtain ⟨-, hbits⟩ := (Binary.ofBits_eq_zero x.toBits.toNat_lt).1 h
    cases hsigned : signed x with
    | false =>
      rw [hsigned] at hbits
      exact .inl (eq_of_toBits (UInt64.toNat_inj.1 hbits))
    | true =>
      rw [hsigned] at hbits
      exact .inr (eq_of_toBits (UInt64.toNat_inj.1 hbits))

/-- the quotient of two numbers that are taken apart, put together again -/
def quotient (a b : Binary) : Float :=
  ⟨.pack (UnpackedFloat.div Format.binary64 (unpacked a) (unpacked b))⟩

theorem div_eq_quotient (a b : Float) : a / b = quotient (Binary.ofFloat a) (Binary.ofFloat b) := by
  rw [quotient, ← unpack_eq, ← unpack_eq]
  rfl

/-- the infinity of a sign -/
def infinityOf (negative : Bool) : Float := if negative then negativeInfinity else infinity

theorem quotient_of_indeterminate {a : Binary} (ha : a.Indeterminate) (bNegative : Bool) (q : ℤ) :
    quotient a (.finite bNegative 0 q) = notANumber := by
  rcases ha with rfl | ⟨negative, e, rfl⟩
  · cases bNegative <;> rfl
  · cases bNegative <;> rfl

theorem quotient_of_determinate {a : Binary} {negative : Bool} (ha : a.Determinate negative) (bNegative : Bool)
    (q : ℤ) : quotient a (.finite bNegative 0 q) = infinityOf (negative != bNegative) := by
  rcases ha with rfl | ⟨m, e, hm, rfl⟩
  · cases negative <;> cases bNegative <;> rfl
  · simp only [quotient, unpacked, dif_neg hm]
    cases negative <;> cases bNegative <;> rfl

/-- **Division is division.** The rule for a zero divisor says nothing else than the division of doubles. -/
theorem divide_eq (a b : Float) : divide a b = a / b := by
  rw [div_eq_quotient, divide]
  split
  · next bNegative q hb =>
    rw [hb]
    split
    · next ha => exact (quotient_of_indeterminate (.inl ha) _ _).symm
    · next ha => exact (quotient_of_indeterminate (.inr ⟨_, _, ha⟩) _ _).symm
    · next negative m e hm ha => exact (quotient_of_determinate (.inr ⟨m, e, hm, ha⟩) _ _).symm
    · next ha => exact (quotient_of_determinate (.inl ha) _ _).symm
  · exact div_eq_quotient a b

theorem signed_of_finite {x : Float} {negative : Bool} {m : ℕ} {q : ℤ} (h : Binary.ofFloat x = .finite negative m q) :
    signed x = negative := by
  simp only [Binary.ofFloat, Binary.ofBits] at h
  split_ifs at h
  · exact (Binary.finite.inj h).1
  · exact (Binary.finite.inj h).1

theorem indeterminate_iff {x : Float} :
    (Binary.ofFloat x).Indeterminate ↔ x = 0.0 ∨ x = -0.0 ∨ x = notANumber := by
  rw [← or_assoc, eq_zero_iff, eq_notANumber_iff, or_comm]
  refine or_congr Iff.rfl ⟨fun ⟨negative, q, h⟩ => ?_, fun h => ⟨_, _, h⟩⟩
  have hleast := ((Binary.ofBits_eq_zero x.toBits.toNat_lt).1 h).1
  rw [h, signed_of_finite h, hleast]

/-- every other number has the sign of its sign bit -/
theorem determinate_of_not {x : Float} (h : ¬ (Binary.ofFloat x).Indeterminate) :
    (Binary.ofFloat x).Determinate (signed x) := by
  cases hx : Binary.ofFloat x with
  | notANumber => exact absurd (.inl hx) h
  | infinite negative =>
    obtain rfl : signed x = negative := (Binary.ofBits_eq_infinite_iff.1 hx).2.2
    exact .inl rfl
  | finite negative m q =>
    have hm : m ≠ 0 := by
      rintro rfl
      exact h (.inr ⟨_, _, hx⟩)
    rw [← signed_of_finite hx]
    exact .inr ⟨m, q, hm, rfl⟩

/-- **Division by a zero.** There is no number for a zero and for what is not a number; every other dividend, an
infinity too, gives an infinity, which is negative just if one of the two sign bits is set and the other is not. -/
theorem divide_zero {a b : Float} (hb : b = 0.0 ∨ b = -0.0) :
    (divide a b = notANumber ↔ a = 0.0 ∨ a = -0.0 ∨ a = notANumber) ∧
      (divide a b ≠ notANumber → divide a b = infinityOf (signed a != signed b)) := by
  rw [← indeterminate_iff, divide_eq, div_eq_quotient, eq_zero_iff.1 hb]
  by_cases ha : (Binary.ofFloat a).Indeterminate
  · have hquotient := quotient_of_indeterminate ha (signed b) (-1074)
    exact ⟨iff_of_true hquotient ha, fun hne => absurd hquotient hne⟩
  · have hquotient := quotient_of_determinate (determinate_of_not ha) (signed b) (-1074)
    have hne : infinityOf (signed a != signed b) ≠ notANumber := by
      rw [Ne, eq_notANumber_iff]
      cases signed a != signed b <;> decide
    exact ⟨iff_of_false (hquotient ▸ hne) ha, fun _ => hquotient⟩

end Number

/-! ## Numerals -/

namespace Numeral

theorem ofScientific_unpacked_isNumber {n : ℕ} (hn : n ≠ 0) (e : ℤ) :
    UnpackedFloat.ofScientific Format.binary64 n e ≠ .notANumber := by
  rw [UnpackedFloat.ofScientific, dif_neg hn]
  split_ifs
  · simp
  · simp
  · exact roundWithAccuracy_isNumber _ _ _ _
  · exact roundWithAccuracy_isNumber _ _ _ _

theorem ofScientific_isNumber {n : ℕ} (hn : n ≠ 0) (negative : Bool) (e : ℕ) :
    (Float.ofScientific n negative e).toModel.unpack ≠ .notANumber := by
  by_cases hquick : n < 2 ^ 53 ∧ e ≤ 22
  · have hsize : e < Float.exactlyRepresentablePowersOfTen.size := Nat.lt_succ_of_le hquick.2
    obtain ⟨m₁, q₁, hdigits, -⟩ := toUInt64_isDouble hn hquick.1
    obtain ⟨m₂, q₂, hpower, -⟩ :=
      isDouble_of_isNatural (powersOfTen_natural ⟨e, Nat.lt_succ_of_le hquick.2⟩ hsize)
    rw [Float.ofScientific, dif_pos hquick]
    cases negative with
    | true => exact hdigits.div_isNumber hpower
    | false => exact hdigits.mul_isNumber hpower
  · rw [Float.ofScientific, dif_neg hquick]
    exact unpack_pack_isNumber (ofScientific_unpacked_isNumber hn _)

theorem magnitude_isNumber (n : Numeral) : n.magnitude.toModel.unpack ≠ .notANumber := by
  simp only [magnitude]
  split
  · exact ofFloat_ne_notANumber_iff.1 (by decide)
  · next hcut =>
    split
    · exact ofFloat_ne_notANumber_iff.1 (by decide)
    · exact ofScientific_isNumber (not_or.1 hcut).1 _ _

/-- **A numeral is read as a number**, an infinity perhaps, whatever its length and exponent -/
theorem toFloat_isNumber (n : Numeral) : Binary.ofFloat n.toFloat ≠ .notANumber := by
  rw [ofFloat_ne_notANumber_iff, toFloat]
  split
  · exact neg_isNumber n.magnitude_isNumber
  · exact n.magnitude_isNumber

end Numeral

end FrameLisp
