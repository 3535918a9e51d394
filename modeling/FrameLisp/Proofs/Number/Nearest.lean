/-
The double of a numeral.

A numeral stands for a rational (`Numeral.value`) with a sign, and reading it gives the nearest double. There are two
ways to get there: few digits and a small exponent go through one product or quotient of doubles, all others through
exact arithmetic that is rounded once.

Results:
- `ofScientific_isDouble`: on both ways, digits and an exponent whose value lies in the interval of a double give it.
- `Numeral.toFloat_isDouble`: so a numeral in the interval of a double, with its sign, is read as that double.
-/
import FrameLisp.Number.Numeral
import FrameLisp.Proofs.Number.Arithmetic

namespace FrameLisp.Rounding

open Float.Model Float.Model.UnpackedFloat

/-! ## Doubles -/

/-- `x` is `m * 2 ^ q` with a sign -/
def IsDouble (x : Float) (negative : Bool) (m : ℕ) (q : ℤ) : Prop :=
  ∃ hpos, x.toModel.unpack = .finite (signOf negative) m q hpos

theorem isDouble_of_ofFloat {x : Float} {negative : Bool} {m : ℕ} {q : ℤ}
    (h : Binary.ofFloat x = .finite negative m q) (hm : m ≠ 0) :
    IsDouble x negative m q ∧ Canonical m q ∧ q ≤ 971 := by
  obtain ⟨hunpack, hc, hq⟩ := unpack_of_ofBits (b := x.toModel.toBits.toBitVec) h hm
  exact ⟨⟨Nat.pos_of_ne_zero hm, hunpack⟩, hc, hq⟩

namespace IsDouble

variable {x y : Float} {negative : Bool} {m : ℕ} {q : ℤ}

/-- numbers with the same sign, mantissa and exponent are equal -/
theorem beq (hx : IsDouble x negative m q) (hy : IsDouble y negative m q) : (x == y) = true := by
  obtain ⟨_, hx⟩ := hx
  obtain ⟨_, hy⟩ := hy
  change x.toModel.unpack.beq y.toModel.unpack = true
  rw [hx, hy]
  cases negative <;> simp [signOf, UnpackedFloat.beq, UnpackedFloat.compare]

theorem neg (hx : IsDouble x false m q) (hc : Canonical m q) (hq : q ≤ 971) : IsDouble (-x) true m q := by
  obtain ⟨hpos, hx⟩ := hx
  have hneg : (-x).toModel = .pack (.finite .negative m q hpos) := by
    change Float.Model.pack x.toModel.unpack.neg = _
    rw [hx]
    rfl
  refine ⟨hpos, ?_⟩
  rw [hneg]
  exact unpack_pack .negative hc hq hpos

/-- products and quotients of positive doubles that lie in the interval of a double -/
theorem mul {m₁ m₂ : ℕ} {q₁ q₂ : ℤ} (hx : IsDouble x false m₁ q₁) (hy : IsDouble y false m₂ q₂) (hc : Canonical m q)
    (hq : q ≤ 971) (hfull : 2 ^ 52 ≤ m₁) (hin : (Decimal.span m q).Contains (m₁ * 2 ^ q₁ * (m₂ * 2 ^ q₂))) :
    IsDouble (x * y) false m q := by
  obtain ⟨hpos₁, hx⟩ := hx
  obtain ⟨hpos₂, hy⟩ := hy
  have hbits : 2 ^ 52 ≤ m₁ * m₂ := hfull.trans (Nat.le_mul_of_pos_right m₁ hpos₂)
  have hproduct : (x * y).toModel = .pack (.finite .positive m q (Nat.pos_of_ne_zero hc.ne_zero)) := by
    change Float.Model.pack (UnpackedFloat.mul Format.binary64 x.toModel.unpack y.toModel.unpack) = _
    rw [hx, hy]
    exact congrArg Float.Model.pack (mul_eq hc hin (le_target hbits) hpos₁ hpos₂)
  refine ⟨Nat.pos_of_ne_zero hc.ne_zero, ?_⟩
  rw [hproduct]
  exact unpack_pack .positive hc hq _

theorem div {m₁ m₂ : ℕ} {q₁ q₂ : ℤ} (hx : IsDouble x false m₁ q₁) (hy : IsDouble y false m₂ q₂) (hc : Canonical m q)
    (hq : q ≤ 971) (hin : (Decimal.span m q).Contains (m₁ * 2 ^ q₁ / (m₂ * 2 ^ q₂))) :
    IsDouble (x / y) false m q := by
  obtain ⟨hpos₁, hx⟩ := hx
  obtain ⟨hpos₂, hy⟩ := hy
  have hquotient : (x / y).toModel = .pack (.finite .positive m q (Nat.pos_of_ne_zero hc.ne_zero)) := by
    change Float.Model.pack (UnpackedFloat.div Format.binary64 x.toModel.unpack y.toModel.unpack) = _
    rw [hx, hy]
    exact congrArg Float.Model.pack (div_eq hc hpos₁ hpos₂ hin)
  refine ⟨Nat.pos_of_ne_zero hc.ne_zero, ?_⟩
  rw [hquotient]
  exact unpack_pack .positive hc hq _

end IsDouble

/-! ## Whole numbers -/

/-- a whole number of at most 53 bits as a double has it -/
theorem canonical_shiftLeft {n : ℕ} (hn : n ≠ 0) (hbits : n < 2 ^ 53) :
    Canonical (n <<< (52 - n.log2)) (-(52 - n.log2 : ℕ)) ∧ 2 ^ 52 ≤ n <<< (52 - n.log2) := by
  have hlog : n.log2 < 53 := (Nat.log2_lt hn).2 hbits
  have hlower : 2 ^ 52 ≤ n <<< (52 - n.log2) := by
    have hself := Nat.mul_le_mul_right (2 ^ (52 - n.log2)) (Nat.log2_self_le hn)
    rwa [← pow_add, show n.log2 + (52 - n.log2) = 52 by omega, ← Nat.shiftLeft_eq] at hself
  have hupper : n <<< (52 - n.log2) < 2 ^ 53 := by
    have hself := Nat.mul_lt_mul_of_pos_right (Nat.lt_log2_self (n := n)) (Nat.two_pow_pos (52 - n.log2))
    rwa [← pow_add, show n.log2 + 1 + (52 - n.log2) = 53 by omega, ← Nat.shiftLeft_eq] at hself
  exact ⟨⟨by omega, hupper, by omega, .inr hlower⟩, hlower⟩

theorem ofNat_eq {n : ℕ} (hn : n ≠ 0) (hbits : n < 2 ^ 53) :
    UnpackedFloat.ofNat Format.binary64 n = .finite .positive (n <<< (52 - n.log2)) (-(52 - n.log2 : ℕ))
      (Nat.pos_of_ne_zero (canonical_shiftLeft hn hbits).1.ne_zero) := by
  obtain ⟨hc, hfull⟩ := canonical_shiftLeft hn hbits
  have hlog : n.log2 < 53 := (Nat.log2_lt hn).2 hbits
  have hsign : compare (n : ℤ) 0 = .gt := compare_gt_iff_gt.2 (by omega)
  have hshift : (-Format.binary64.targetExponent (totalExponent n 0)).toNat = 52 - n.log2 := by
    rw [targetExponent_eq, target]
    omega
  have hself := roundWithAccuracy_eq hc (Decimal.span_contains_self hc.ne_zero _) (approximates_exact _ _)
    (le_target hfull) .positive
  simp only [UnpackedFloat.ofNat, UnpackedFloat.ofInt, UnpackedFloat.normalize, hsign, UnpackedFloat.round,
    UnpackedFloat.decreaseExponent, Int.toNat_natCast, Int.zero_sub]
  rw [hshift]
  exact hself

/-- the digits of a numeral, when 53 bits hold them -/
theorem toUInt64_isDouble {n : ℕ} (hn : n ≠ 0) (hbits : n < 2 ^ 53) :
    ∃ m q, IsDouble n.toUInt64.toFloat false m q ∧ 2 ^ 52 ≤ m ∧ (m : ℚ) * 2 ^ q = n := by
  obtain ⟨hc, hfull⟩ := canonical_shiftLeft hn hbits
  have hvalue : ((n <<< (52 - n.log2) : ℕ) : ℚ) * 2 ^ (-(52 - n.log2 : ℕ) : ℤ) = n := by
    rw [Nat.shiftLeft_eq, zpow_neg, zpow_natCast]
    push_cast
    field_simp
  have hword : n.toUInt64.toNat = n := by
    rw [Nat.toUInt64_eq, UInt64.toNat_ofNat', Nat.mod_eq_of_lt]
    omega
  refine ⟨_, _, ⟨Nat.pos_of_ne_zero hc.ne_zero, ?_⟩, hfull, hvalue⟩
  change Float.Model.unpack (.pack (UnpackedFloat.ofNat Format.binary64 n.toUInt64.toNat)) = _
  rw [hword, ofNat_eq hn hbits]
  exact unpack_pack .positive hc (by omega) _

/-- whether a double is the natural number `n`, on natural numbers -/
def isNatural (x : Float) (n : ℕ) : Bool :=
  match Binary.ofFloat x with
  | .finite false m q => m ≠ 0 && m * 2 ^ q.toNat == n * 2 ^ (-q).toNat
  | _ => false

theorem powersOfTen_natural :
    ∀ (e : Fin 23) (h : e.val < Float.exactlyRepresentablePowersOfTen.size),
      isNatural (Float.exactlyRepresentablePowersOfTen[e.val]) (10 ^ e.val) = true := by
  decide +kernel

theorem isDouble_of_isNatural {x : Float} {n : ℕ} (h : isNatural x n = true) :
    ∃ m q, IsDouble x false m q ∧ (m : ℚ) * 2 ^ q = n := by
  rw [isNatural] at h
  split at h
  · next m q hx =>
    simp only [Bool.and_eq_true, decide_eq_true_eq, beq_iff_eq] at h
    obtain ⟨hm, hvalue⟩ := h
    refine ⟨m, q, (isDouble_of_ofFloat hx hm).1, ?_⟩
    have hcast : (m : ℚ) * 2 ^ q.toNat = n * 2 ^ (-q).toNat := by exact_mod_cast hvalue
    rw [Decimal.zpow_eq_div]
    field_simp
    rw [hcast, mul_comm]
  · cases h

/-! ## The range -/

namespace Canonical

variable {m : ℕ} {q : ℤ} {x : ℚ}

/-- what is read as a double is below the range's end -/
theorem lt_two_pow (hc : Canonical m q) (hq : q ≤ 971) (hx : (Decimal.span m q).Contains x) : x < 2 ^ (1024 : ℤ) := by
  have hend : x ≤ (4 * m + 2 : ℕ) * 2 ^ (q - 2) := hx.le.2
  have hbits : ((4 * m + 2 : ℕ) : ℚ) < 2 ^ 55 := by
    have hnat : 4 * m + 2 < 2 ^ 55 := by
      have hbits := hc.bits
      omega
    exact_mod_cast hnat
  calc x ≤ (4 * m + 2 : ℕ) * 2 ^ (q - 2) := hend
    _ < 2 ^ 55 * 2 ^ (q - 2) := (mul_lt_mul_iff_of_pos_right (by positivity)).2 hbits
    _ = 2 ^ (q + 53) := by
      rw [← zpow_natCast, ← zpow_add₀ two_ne_zero]
      congr 1
      push_cast
      ring
    _ ≤ 2 ^ (1024 : ℤ) := zpow_le_zpow_right₀ one_le_two (by omega)

/-- and at least half the least double -/
theorem two_pow_le (hc : Canonical m q) (hx : (Decimal.span m q).Contains x) : 2 ^ (-1075 : ℤ) ≤ x := by
  have hstart : (Decimal.span m q).low * 2 ^ (q - 2) ≤ x := hx.le.1
  have hlow : (2 : ℚ) ≤ (Decimal.span m q).low := by
    have hnat : 2 ≤ (Decimal.span m q).low := by
      have hne := hc.ne_zero
      simp only [Decimal.span]
      split_ifs <;> omega
    exact_mod_cast hnat
  calc (2 : ℚ) ^ (-1075 : ℤ) ≤ 2 ^ (q - 1) := zpow_le_zpow_right₀ one_le_two (by have := hc.least; omega)
    _ = 2 * 2 ^ (q - 2) := by
      rw [← zpow_one_add₀ two_ne_zero]
      congr 1
      ring
    _ ≤ (Decimal.span m q).low * 2 ^ (q - 2) := by gcongr
    _ ≤ x := hstart

/-- the exponent is small enough to compute with -/
theorem exponent_lt (hc : Canonical m q) (hq : q ≤ 971) {n : ℕ} (hn : n ≠ 0) {e : ℤ}
    (hx : (Decimal.span m q).Contains (n * 10 ^ e)) : e < 1024 := by
  have hpos : (1 : ℚ) ≤ n := by exact_mod_cast Nat.one_le_iff_ne_zero.2 hn
  rcases lt_or_ge e 0 with hneg | hnonneg
  · omega
  · have hle : (2 : ℚ) ^ e ≤ n * 10 ^ e := by
      calc (2 : ℚ) ^ e ≤ 10 ^ e := zpow_le_zpow_left₀ hnonneg (by norm_num) (by norm_num)
        _ ≤ n * 10 ^ e := le_mul_of_one_le_left (by positivity) hpos
    exact (zpow_lt_zpow_iff_right₀ one_lt_two).1 (hle.trans_lt (hc.lt_two_pow hq hx))

/-- and large enough -/
theorem le_exponent (hc : Canonical m q) {n : ℕ} {e : ℤ} (hx : (Decimal.span m q).Contains (n * 10 ^ e)) :
    -(1076 + (n.log2 : ℤ)) ≤ e := by
  rcases lt_or_ge e 0 with hneg | hnonneg
  · have hbits : (n : ℚ) < 2 ^ ((n.log2 : ℤ) + 1) := by exact_mod_cast (Nat.lt_log2_self (n := n))
    have hpower : (10 : ℚ) ^ e ≤ 2 ^ e := by
      have hinv : (2 : ℚ) ^ (-e) ≤ 10 ^ (-e) := zpow_le_zpow_left₀ (by omega) (by norm_num) (by norm_num)
      rw [zpow_neg, zpow_neg] at hinv
      exact (inv_le_inv₀ (by positivity) (by positivity)).1 hinv
    have hlt : (n : ℚ) * 10 ^ e < 2 ^ ((n.log2 : ℤ) + 1 + e) := by
      rw [zpow_add₀ two_ne_zero]
      exact mul_lt_mul hbits hpower (by positivity) (by positivity)
    have hexp := (zpow_lt_zpow_iff_right₀ one_lt_two).1 ((hc.two_pow_le hx).trans_lt hlt)
    omega
  · omega

end Canonical

/-! ## Digits and an exponent -/

theorem ten_pow_of_nonneg {e : ℤ} (h : 0 ≤ e) : (10 : ℚ) ^ e = 10 ^ e.toNat := by
  rw [← zpow_natCast, Int.toNat_of_nonneg h]

theorem ten_pow_of_neg {e : ℤ} (h : e < 0) : (10 : ℚ) ^ e = (10 ^ (-e).toNat)⁻¹ := by
  have hcast : ((-e).toNat : ℤ) = -e := by omega
  rw [← zpow_natCast, ← zpow_neg, hcast, neg_neg]

section Scientific

variable {m : ℕ} {q : ℤ} (hc : Canonical m q) (hq : q ≤ 971) {n : ℕ} (hn : n ≠ 0) {e : ℤ}
  (hx : (Decimal.span m q).Contains (n * 10 ^ e))

include hc hq hn hx

/-- one product or quotient of doubles -/
theorem quick_isDouble (hbits : n < 2 ^ 53) (he : e.natAbs < 23) :
    IsDouble (Float.ofScientific n (decide (e < 0)) e.natAbs) false m q := by
  obtain ⟨m₁, q₁, hdigits, hfull, hvalue₁⟩ := toUInt64_isDouble hn hbits
  have hsize : e.natAbs < Float.exactlyRepresentablePowersOfTen.size := he
  obtain ⟨m₂, q₂, hpower, hvalue₂⟩ := isDouble_of_isNatural (powersOfTen_natural ⟨e.natAbs, he⟩ hsize)
  rw [Float.ofScientific, dif_pos ⟨hbits, Nat.le_of_lt_succ he⟩]
  push_cast at hvalue₂
  rcases lt_or_ge e 0 with hneg | hpos
  · have hexp : (-e).toNat = e.natAbs := by omega
    rw [ten_pow_of_neg hneg, hexp, ← div_eq_mul_inv, ← hvalue₁, ← hvalue₂] at hx
    simp only [hneg, decide_true, if_true]
    exact hdigits.div hpower hc hq hx
  · have hexp : e.toNat = e.natAbs := by omega
    rw [ten_pow_of_nonneg hpos, hexp, ← hvalue₁, ← hvalue₂] at hx
    simp only [Int.not_lt.2 hpos, decide_false, Bool.false_eq_true, if_false]
    exact hdigits.mul hpower hc hq hfull hx

/-- exact arithmetic, rounded once -/
theorem ofScientific_eq :
    UnpackedFloat.ofScientific Format.binary64 n e = .finite .positive m q (Nat.pos_of_ne_zero hc.ne_zero) := by
  have hlt := hc.exponent_lt hq hn hx
  have hle := hc.le_exponent hx
  have hsize : (2 : ℤ) ^ Format.binary64.exponentBits = 2048 := by norm_num [Format.exponentBits]
  have hhigh : ¬ e > 2 ^ Format.binary64.exponentBits := by omega
  have hlow : ¬ e < -((2 : ℤ) ^ Format.binary64.exponentBits + n.log2) := by omega
  rw [UnpackedFloat.ofScientific, dif_neg hn, if_neg hhigh, if_neg hlow]
  rcases lt_or_ge e 0 with hneg | hnonneg
  · rw [if_neg (Int.not_le.2 hneg)]
    have hvalue : (n : ℚ) * 2 ^ (0 : ℤ) / ((10 ^ (-e).toNat : ℕ) * 2 ^ (0 : ℤ)) = n * 10 ^ e := by
      rw [ten_pow_of_neg hneg]
      push_cast
      rw [mul_one, mul_one, div_eq_mul_inv]
    rw [← hvalue] at hx
    exact div_eq hc _ _ hx
  · rw [if_pos hnonneg]
    have hvalue : ((n <<< 53 : ℕ) : ℚ) * 2 ^ (-53 : ℤ) * ((10 ^ e.toNat : ℕ) * 2 ^ (0 : ℤ)) = n * 10 ^ e := by
      rw [ten_pow_of_nonneg hnonneg, Nat.shiftLeft_eq, zpow_neg]
      push_cast
      field_simp
    have hbits : 2 ^ 52 ≤ (n <<< 53) * 10 ^ e.toNat := by
      rw [Nat.shiftLeft_eq]
      have hone : 0 < n * 10 ^ e.toNat := by positivity
      calc 2 ^ 52 ≤ 2 ^ 53 * (n * 10 ^ e.toNat) := by omega
        _ = n * 2 ^ 53 * 10 ^ e.toNat := by ring
    rw [← hvalue] at hx
    exact mul_eq hc hx (le_target hbits) _ _

/-- **Digits and an exponent in the interval of a double are read as that double** -/
theorem ofScientific_isDouble : IsDouble (Float.ofScientific n (decide (e < 0)) e.natAbs) false m q := by
  by_cases hquick : n < 2 ^ 53 ∧ e.natAbs < 23
  · exact quick_isDouble hc hq hn hx hquick.1 hquick.2
  · have hexp : (if decide (e < 0) = true then Int.negOfNat e.natAbs else Int.ofNat e.natAbs) = e := by
      simp only [decide_eq_true_eq, Int.negOfNat_eq, Int.ofNat_eq_natCast]
      split_ifs <;> omega
    rw [Float.ofScientific, dif_neg (by omega), hexp]
    refine ⟨Nat.pos_of_ne_zero hc.ne_zero, ?_⟩
    have hexact := congrArg Float.Model.pack (ofScientific_eq hc hq hn hx)
    exact (congrArg Float.Model.unpack hexact).trans (unpack_pack .positive hc hq _)

end Scientific

end FrameLisp.Rounding

/-! ## Numerals -/

namespace FrameLisp.Numeral

/-- the rational that a numeral stands for, without its sign -/
def value (n : Numeral) : ℚ := n.digits * 10 ^ n.exponent

/-- the cuts are beyond the range of doubles -/
theorem two_pow_lt_ten_pow : (2 : ℚ) ^ (1024 : ℤ) < 10 ^ (310 : ℤ) := by
  have hnat : (2 : ℕ) ^ 1024 < 10 ^ 310 := by decide +kernel
  exact_mod_cast hnat

theorem ten_pow_lt_two_pow : (10 : ℚ) ^ (-331 : ℤ) < 2 ^ (-1075 : ℤ) := by
  have hnat : (2 : ℕ) ^ 1075 < 10 ^ 331 := by decide +kernel
  have hcast : (2 : ℚ) ^ (1075 : ℤ) < 10 ^ (331 : ℤ) := by exact_mod_cast hnat
  rw [zpow_neg, zpow_neg]
  exact (inv_lt_inv₀ (by positivity) (by positivity)).2 hcast

open Rounding

variable {n : Numeral} {m : ℕ} {q : ℤ}

theorem digits_ne_zero (hc : Canonical m q) (hx : (Decimal.span m q).Contains n.value) : n.digits ≠ 0 := by
  intro hzero
  have hmin := hc.two_pow_le hx
  rw [value, hzero, Nat.cast_zero, zero_mul] at hmin
  exact absurd hmin (not_le.2 (by positivity))

/-- a numeral in the interval of a double is not too small to be computed -/
theorem le_top (hc : Canonical m q) (hx : (Decimal.span m q).Contains n.value) :
    -330 ≤ Decimal.length n.digits + n.exponent := by
  by_contra hsmall
  have hmin := hc.two_pow_le hx
  rw [value] at hmin
  have hdigits : (n.digits : ℚ) ≤ 10 ^ (Decimal.length n.digits : ℤ) := by
    rw [zpow_natCast]
    exact_mod_cast (Decimal.Span.lt_pow_length n.digits).le
  have hle : (2 : ℚ) ^ (-1075 : ℤ) ≤ 10 ^ (-331 : ℤ) := by
    calc (2 : ℚ) ^ (-1075 : ℤ) ≤ n.digits * 10 ^ n.exponent := hmin
      _ ≤ 10 ^ (Decimal.length n.digits : ℤ) * 10 ^ n.exponent := by gcongr
      _ = 10 ^ (Decimal.length n.digits + n.exponent) := by rw [← zpow_add₀ (by norm_num)]
      _ ≤ 10 ^ (-331 : ℤ) := zpow_le_zpow_right₀ (by norm_num) (by omega)
  exact absurd hle (not_le.2 ten_pow_lt_two_pow)

variable (hc : Canonical m q) (hq : q ≤ 971) (hx : (Decimal.span m q).Contains n.value)

include hc hq hx

/-- nor too large -/
theorem top_le : Decimal.length n.digits + n.exponent ≤ 310 := by
  by_contra hlarge
  have hmax := hc.lt_two_pow hq hx
  rw [value] at hmax
  have hlength : 0 < Decimal.length n.digits := Nat.length_toDigits_pos
  have hdigits : (10 : ℚ) ^ ((Decimal.length n.digits : ℤ) - 1) ≤ n.digits := by
    have hcast : (Decimal.length n.digits : ℤ) - 1 = (Decimal.length n.digits - 1 : ℕ) := by omega
    rw [hcast, zpow_natCast]
    exact_mod_cast Decimal.Span.pow_length_le (digits_ne_zero hc hx)
  have hlt : (10 : ℚ) ^ (310 : ℤ) < 2 ^ (1024 : ℤ) := by
    calc (10 : ℚ) ^ (310 : ℤ) ≤ 10 ^ ((Decimal.length n.digits : ℤ) - 1 + n.exponent) :=
          zpow_le_zpow_right₀ (by norm_num) (by omega)
      _ = 10 ^ ((Decimal.length n.digits : ℤ) - 1) * 10 ^ n.exponent := by rw [← zpow_add₀ (by norm_num)]
      _ ≤ n.digits * 10 ^ n.exponent := by gcongr
      _ < 2 ^ (1024 : ℤ) := hmax
  exact absurd hlt (not_lt.2 two_pow_lt_ten_pow.le)

/-- so it is computed -/
theorem magnitude_eq :
    n.magnitude = Float.ofScientific n.digits (decide (n.exponent < 0)) n.exponent.natAbs := by
  have hne := digits_ne_zero hc hx
  have hlow := le_top hc hx
  have hhigh := top_le hc hq hx
  have hcut : ¬ (n.digits = 0 ∨ Decimal.length n.digits + n.exponent < -330) := by omega
  rw [magnitude, if_neg hcut, if_neg (Int.not_lt.2 hhigh)]

/-- **A numeral in the interval of a double is read as that double** -/
theorem toFloat_isDouble : IsDouble n.toFloat n.negative m q := by
  have hdouble : IsDouble n.magnitude false m q := by
    rw [magnitude_eq hc hq hx]
    exact ofScientific_isDouble hc hq (digits_ne_zero hc hx) hx
  rw [toFloat]
  cases n.negative with
  | true => exact hdouble.neg hc hq
  | false => exact hdouble

end FrameLisp.Numeral
