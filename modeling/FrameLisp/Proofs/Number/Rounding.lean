/-
Rounding to the nearest double.

A double with a sign is `m * 2 ^ q`, where `m` has 53 bits or `q` is the least exponent (`Canonical`). The arithmetic of
doubles computes a mantissa that may have too many bits, together with two bits that say how it falls short of the exact
result (`Represents`), shifts the mantissa to the right and rounds it to the nearest, of two equally near ones to the
even one.

Results:
- `Represents.shiftRight`: a shift keeps what the mantissa and the two bits say.
- `Represents.nearest_rounded`: the rounded mantissa is the nearest whole number.
- `roundWithAccuracy_eq`: what lies in the interval of a double is rounded to that double.
-/
import FrameLisp.Proofs.Number.Interval

namespace FrameLisp.Rounding

open Float.Model Float.Model.UnpackedFloat

/-! ## Nearest whole numbers -/

/-- whether `n` is a nearest whole number of `y`, the even one if there are two -/
structure Nearest (n : ℕ) (y : ℚ) : Prop where
  le : (n : ℚ) ≤ y + 1 / 2
  ge : y ≤ n + 1 / 2
  even : (n : ℚ) = y + 1 / 2 ∨ y = n + 1 / 2 → n % 2 = 0

/-- what is less than half a unit away -/
theorem Nearest.of_lt {n : ℕ} {y : ℚ} (hle : (n : ℚ) < y + 1 / 2) (hge : y < n + 1 / 2) : Nearest n y := by
  refine ⟨hle.le, hge.le, fun htie => ?_⟩
  rcases htie with htop | hbottom
  · exact absurd htop hle.ne
  · exact absurd hbottom hge.ne

theorem Nearest.le_of_nearest {n k : ℕ} {y : ℚ} (hn : Nearest n y) (hk : Nearest k y) : n ≤ k := by
  by_contra hlt
  have hstep : (k : ℚ) + 1 ≤ n := by exact_mod_cast Nat.lt_of_not_le hlt
  have hle := hn.le
  have hge := hk.ge
  -- both are half a unit away from `y`, so both are even, but they are neighbours
  have htop : (n : ℚ) = y + 1 / 2 := by linarith
  have hbottom : y = k + 1 / 2 := by linarith
  have hnext : n = k + 1 := by
    have hcast : (n : ℚ) = k + 1 := by linarith
    exact_mod_cast hcast
  have hneven := hn.even (.inl htop)
  have hkeven := hk.even (.inr hbottom)
  omega

theorem Nearest.unique {n k : ℕ} {y : ℚ} (hn : Nearest n y) (hk : Nearest k y) : n = k :=
  Nat.le_antisymm (hn.le_of_nearest hk) (hk.le_of_nearest hn)

/-! ## Mantissas with residual bits -/

/-- half a unit when the bit is set -/
def half (bit : Bool) : ℚ := if bit then 1 / 2 else 0

@[simp] theorem half_true : half true = 1 / 2 := rfl

@[simp] theorem half_false : half false = 0 := rfl

/-- what a mantissa with its residual bits says of a rational: the round bit is its next bit, and the sticky bit tells
whether there is more -/
structure Represents (em : ExtendedMantissa) (y : ℚ) : Prop where
  le : em.mantissa + half em.roundBit ≤ y
  lt : y < em.mantissa + half em.roundBit + 1 / 2
  exact : em.stickyBit = false ↔ y = em.mantissa + half em.roundBit

namespace Represents

variable {em : ExtendedMantissa} {y : ℚ} (h : Represents em y)

include h

theorem mantissa_le : (em.mantissa : ℚ) ≤ y := by
  have hle := h.le
  have hhalf : 0 ≤ half em.roundBit := by rw [half]; split <;> norm_num
  linarith

theorem lt_mantissa_add_one : y < em.mantissa + 1 := by
  have hlt := h.lt
  have hhalf : half em.roundBit ≤ 1 / 2 := by rw [half]; split <;> norm_num
  linarith

/-- one bit less -/
theorem shiftRightOne : Represents em.shiftRightOne (y / 2) := by
  have hsplit : (em.mantissa : ℚ) = 2 * (em.mantissa / 2 : ℕ) + (em.mantissa % 2 : ℕ) := by
    exact_mod_cast (Nat.div_add_mod em.mantissa 2).symm
  have hbit : half (em.mantissa % 2 != 0) = (em.mantissa % 2 : ℕ) / 2 := by
    rcases Nat.mod_two_eq_zero_or_one em.mantissa with hzero | hone
    · simp [half, hzero]
    · simp [half, hone]
  have hle := h.mantissa_le
  have hlt := h.lt_mantissa_add_one
  refine ⟨?_, ?_, ?_⟩
  · simp only [ExtendedMantissa.shiftRightOne, hbit]
    linarith
  · simp only [ExtendedMantissa.shiftRightOne, hbit]
    linarith
  · simp only [ExtendedMantissa.shiftRightOne, hbit, Bool.or_eq_false_iff]
    have hwhole : y / 2 = (em.mantissa / 2 : ℕ) + (em.mantissa % 2 : ℕ) / 2 ↔ y = em.mantissa := by
      constructor <;> intro heq <;> linarith
    rw [hwhole]
    constructor
    · rintro ⟨hround, hsticky⟩
      rw [h.exact.1 hsticky, hround, half, if_neg (by simp), add_zero]
    · intro heq
      have hround : em.roundBit = false := by
        by_contra hset
        have hset : em.roundBit = true := by simpa using hset
        have hmore := h.le
        rw [hset, half, if_pos rfl] at hmore
        linarith
      refine ⟨hround, h.exact.2 ?_⟩
      rw [hround, half, if_neg (by simp), add_zero, heq]

/-- `k` bits less -/
theorem shiftRight (k : ℕ) : Represents (em >>> k) (y / 2 ^ k) := by
  induction k with
  | zero =>
    rw [pow_zero, div_one]
    exact h
  | succ k ih =>
    have hstep := ih.shiftRightOne
    rwa [div_div, ← pow_succ] at hstep

/-- the rounded mantissa is the nearest whole number -/
theorem nearest_rounded : Nearest em.roundedMantissa y := by
  obtain ⟨m, round, sticky⟩ := em
  have hle := h.le
  have hlt := h.lt
  have hexact := h.exact
  cases round with
  | false =>
    -- less than half a unit above the mantissa, if at all
    simp only [half_false, add_zero] at hle hlt
    have hnearest : Nearest m y := .of_lt (by linarith) hlt
    cases sticky with
    | false => exact hnearest
    | true => exact hnearest
  | true =>
    simp only [half_true] at hle hlt hexact
    cases sticky with
    | false =>
      -- half a unit above it, so the even neighbour
      have hy : y = m + 1 / 2 := hexact.1 rfl
      have hbit : ((m % 2 : ℕ) : ℚ) ≤ 1 := by exact_mod_cast Nat.le_of_lt_succ (Nat.mod_lt m two_pos)
      have hbit' : (0 : ℚ) ≤ (m % 2 : ℕ) := Nat.cast_nonneg _
      change Nearest (m + m % 2) y
      refine ⟨?_, ?_, fun _ => by omega⟩
      · push_cast
        linarith
      · push_cast
        linarith
    | true =>
      -- more than half a unit above it
      have hy : y ≠ m + 1 / 2 := fun heq => Bool.noConfusion (hexact.2 heq)
      have hgt : (m : ℚ) + 1 / 2 < y := lt_of_le_of_ne hle hy.symm
      change Nearest (m + 1) y
      apply Nearest.of_lt
      · push_cast
        linarith
      · push_cast
        linarith

end Represents

/-! ## The doubles -/

/-- `m * 2 ^ q` as a positive double has it -/
structure Canonical (m : ℕ) (q : ℤ) : Prop where
  ne_zero : m ≠ 0
  bits : m < 2 ^ 53
  least : -1074 ≤ q
  full : q = -1074 ∨ 2 ^ 52 ≤ m

/-- the exponent to which a mantissa is shifted -/
def target (m : ℕ) (e : ℤ) : ℤ := max (m.log2 + e - 52) (-1074)

theorem targetExponent_binary64 (d : ℤ) : Format.binary64.targetExponent d = max (d - 53) (-1074) := by
  simp only [Format.targetExponent, Format.mantissaBits, Format.minExponent]
  norm_num

theorem targetExponent_eq (m : ℕ) (e : ℤ) :
    Format.binary64.targetExponent (totalExponent m e) = target m e := by
  rw [targetExponent_binary64, totalExponent, target]
  omega

/-- a mantissa with 53 bits is not shifted to the left -/
theorem le_target {m : ℕ} (h : 2 ^ 52 ≤ m) {e : ℤ} : e ≤ target m e := by
  have hlog : 52 ≤ m.log2 := (Nat.le_log2 (by omega)).2 h
  rw [target]
  omega

/-- the mantissa of a double is where it has to be -/
theorem Canonical.target_eq {m : ℕ} {q : ℤ} (h : Canonical m q) : target m q = q := by
  have hlog : m.log2 < 53 := (Nat.log2_lt h.ne_zero).2 h.bits
  have hleast := h.least
  rw [target]
  rcases h.full with hq | hm
  · omega
  · have hlog' : 52 ≤ m.log2 := (Nat.le_log2 h.ne_zero).2 hm
    omega

theorem target_two_pow {q : ℤ} (hq : -1074 < q) : target (2 ^ 53) (q - 1) = q := by
  rw [target, Nat.log2_two_pow]
  omega

/-- a shift to the exponent where the mantissa has to be, if that is not below -/
theorem shift_eq {m : ℕ} {e : ℤ} (acc : Accuracy) (h : e ≤ target m e) :
    shiftToTargetExponent Format.binary64 m e acc
      = (ExtendedMantissa.ofMantissaAndAccuracy m acc >>> (target m e - e).toNat, target m e) := by
  have hexp : e + (target m e - e).toNat = target m e := by omega
  simp only [shiftToTargetExponent, shiftToExponent, targetExponent_eq, hexp]

/-- what a rational is that a mantissa with an exponent and an accuracy says something of -/
def Approximates (m : ℕ) (e : ℤ) (acc : Accuracy) (x : ℚ) : Prop :=
  Represents (ExtendedMantissa.ofMantissaAndAccuracy m acc) (x / 2 ^ e)

theorem mantissa_ofMantissaAndAccuracy (m : ℕ) (acc : Accuracy) :
    (ExtendedMantissa.ofMantissaAndAccuracy m acc).mantissa = m := by
  cases acc with
  | exact => rfl
  | inexact order => cases order <;> rfl

theorem approximates_exact (m : ℕ) (e : ℤ) : Approximates m e .exact (m * 2 ^ e) := by
  have hy : (m : ℚ) * 2 ^ e / 2 ^ e = m := by field_simp
  rw [Approximates, hy]
  refine ⟨?_, ?_, ?_⟩ <;> simp [ExtendedMantissa.ofMantissaAndAccuracy]

namespace Approximates

variable {m : ℕ} {e : ℤ} {acc : Accuracy} {x : ℚ} (h : Approximates m e acc x)

include h

theorem le : (m : ℚ) * 2 ^ e ≤ x := by
  have hle := Represents.mantissa_le h
  rwa [mantissa_ofMantissaAndAccuracy, le_div_iff₀ (by positivity)] at hle

theorem lt : x < (m + 1) * 2 ^ e := by
  have hlt := Represents.lt_mantissa_add_one h
  rwa [mantissa_ofMantissaAndAccuracy, div_lt_iff₀ (by positivity)] at hlt

theorem lt_two_pow : x < 2 ^ ((m.log2 : ℤ) + 1 + e) := by
  have hbits : (m : ℚ) + 1 ≤ 2 ^ (m.log2 + 1) := by exact_mod_cast (Nat.lt_log2_self (n := m))
  have hexp : ((m.log2 + 1 : ℕ) : ℤ) + e = m.log2 + 1 + e := by push_cast; rfl
  calc x < (m + 1) * 2 ^ e := h.lt
    _ ≤ 2 ^ (m.log2 + 1) * 2 ^ e := by gcongr
    _ = 2 ^ ((m.log2 : ℤ) + 1 + e) := by rw [← zpow_natCast, ← zpow_add₀ two_ne_zero, hexp]

/-- shifted to where it has to be, the mantissa has at most 53 bits -/
theorem lt_target : x < 2 ^ (target m e + 53) := by
  refine h.lt_two_pow.trans_le (zpow_le_zpow_right₀ one_le_two ?_)
  rw [target]
  omega

/-- and it has 53 bits, or the exponent is the least one -/
theorem target_le (he : e ≤ target m e) : target m e = -1074 ∨ 2 ^ (target m e + 52) ≤ x := by
  by_cases hleast : (m.log2 : ℤ) + e - 52 ≤ -1074
  · exact .inl (max_eq_right hleast)
  · have htarget : target m e = m.log2 + e - 52 := max_eq_left (Int.le_of_not_le hleast)
    have hm : m ≠ 0 := by
      rintro rfl
      rw [htarget, Nat.log2_zero] at he
      omega
    have hbits : (2 : ℚ) ^ m.log2 ≤ m := by exact_mod_cast Nat.log2_self_le hm
    refine .inr ?_
    calc (2 : ℚ) ^ (target m e + 52) = 2 ^ m.log2 * 2 ^ e := by
          rw [← zpow_natCast, ← zpow_add₀ two_ne_zero, htarget]
          congr 1
          ring
      _ ≤ m * 2 ^ e := by gcongr
      _ ≤ x := h.le

/-- the shifted mantissa still says the same -/
theorem shifted (he : e ≤ target m e) :
    Represents (ExtendedMantissa.ofMantissaAndAccuracy m acc >>> (target m e - e).toNat) (x / 2 ^ target m e) := by
  have hshift := Represents.shiftRight h (target m e - e).toNat
  have hexp : e + ((target m e - e).toNat : ℤ) = target m e := by omega
  rwa [div_div, ← zpow_natCast, ← zpow_add₀ two_ne_zero, hexp] at hshift

end Approximates

/-! ## The interval of a double -/

namespace Canonical

variable {m : ℕ} {q : ℤ} {x : ℚ}

/-- in units of its last place, the double is the nearest whole number -/
theorem nearest (h : Canonical m q) (hx : (Decimal.span m q).Contains x) : Nearest m (x / 2 ^ q) := by
  have hm := h.ne_zero
  have hunit : (2 : ℚ) ^ q = 4 * 2 ^ (q - 2) := Decimal.two_pow_eq q
  have hpos : (0 : ℚ) < 2 ^ (q - 2) := by positivity
  have hlow : 4 * (m : ℚ) - 2 ≤ (Decimal.span m q).low := by
    have hnat : 4 * m ≤ (Decimal.span m q).low + 2 := by simp only [Decimal.span]; split_ifs <;> omega
    have hcast : 4 * (m : ℚ) ≤ (Decimal.span m q).low + 2 := by exact_mod_cast hnat
    linarith
  have hhigh : ((Decimal.span m q).high : ℚ) = 4 * m + 2 := by
    simp only [Decimal.span]
    push_cast
    rfl
  have hle := hx.le
  rw [hhigh] at hle
  refine ⟨?_, ?_, fun htie => ?_⟩
  · have hy : (m : ℚ) - 1 / 2 ≤ x / 2 ^ q := by
      rw [le_div_iff₀ (by positivity), hunit]
      have hscaled := mul_le_mul_of_nonneg_right hlow hpos.le
      have hend : (Decimal.span m q).low * (2 : ℚ) ^ (q - 2) ≤ x := hle.1
      linarith
    linarith
  · rw [div_le_iff₀ (by positivity), hunit]
    have hend : x ≤ (4 * m + 2) * 2 ^ (q - 2) := hle.2
    linarith
  · -- the ends belong to the interval of an even mantissa only
    by_contra hodd
    have hopen : (Decimal.span m q).closed = false := by simp only [Decimal.span]; simpa using hodd
    rw [Decimal.Span.Contains, if_neg (by rw [hopen]; simp), hhigh] at hx
    have hstart : (Decimal.span m q).low * (2 : ℚ) ^ (q - 2) < x := hx.1
    have hend : x < (4 * m + 2) * 2 ^ (q - 2) := hx.2
    have hscaled := mul_le_mul_of_nonneg_right hlow hpos.le
    rcases htie with htop | hbottom
    · have hvalue : x = (m - 1 / 2) * 2 ^ q := by
        rw [← div_eq_iff (by positivity)]
        linarith
      rw [hunit] at hvalue
      linarith
    · have hvalue : x = (m + 1 / 2) * 2 ^ q := by
        rw [← div_eq_iff (by positivity)]
        linarith
      rw [hunit] at hvalue
      linarith

/-- below a power of two the interval reaches a quarter of a unit only -/
theorem quarter (hx : (Decimal.span m q).Contains x) (hm : m = 2 ^ 52) (hq : -1074 < q) :
    (2 ^ 53 - 1 / 2 : ℚ) ≤ x / 2 ^ (q - 1) := by
  have hunit : (2 : ℚ) ^ (q - 1) = 2 * 2 ^ (q - 2) := by
    rw [zpow_sub₀ two_ne_zero, zpow_sub₀ two_ne_zero]
    ring
  have hlow : ((Decimal.span m q).low : ℚ) = 2 ^ 54 - 1 := by
    have hnat : (Decimal.span m q).low = 2 ^ 54 - 1 := by
      simp only [Decimal.span, hm]
      rw [if_pos ⟨by norm_num, hq⟩]
      norm_num
    rw [hnat]
    norm_num
  have hend : (Decimal.span m q).low * (2 : ℚ) ^ (q - 2) ≤ x := hx.le.1
  rw [hlow] at hend
  rw [le_div_iff₀ (by positivity), hunit]
  linarith

end Canonical

section Target

variable {m : ℕ} {q : ℤ} (hc : Canonical m q) {x : ℚ} (hx : (Decimal.span m q).Contains x) {n : ℕ} {e : ℤ}
  {acc : Accuracy} (h : Approximates n e acc x)

include hc hx h

/-- with a higher exponent the value would have 53 bits there, which is more than the interval reaches -/
theorem Approximates.target_le_exponent (he : e ≤ target n e) : target n e ≤ q := by
  by_contra hhigh
  have hpos : (0 : ℚ) < 2 ^ q := by positivity
  have hleast := hc.least
  have hge := (h.target_le he).resolve_left (by omega)
  have hbits : (m : ℚ) + 1 ≤ 2 ^ (53 : ℤ) := by exact_mod_cast hc.bits
  have hend : x < 2 ^ (q + 53) := by
    have hunits := (hc.nearest hx).ge
    rw [div_le_iff₀ hpos] at hunits
    rw [zpow_add₀ two_ne_zero, mul_comm]
    refine hunits.trans_lt ((mul_lt_mul_iff_of_pos_right hpos).2 ?_)
    linarith
  have hexp : target n e + 52 < q + 53 := (zpow_lt_zpow_iff_right₀ one_lt_two).1 (hge.trans_lt hend)
  omega

/-- with a lower one the double is a power of two and the value below it -/
theorem Approximates.of_target_lt (hlow : target n e < q) :
    target n e = q - 1 ∧ -1074 < q ∧ m = 2 ^ 52 ∧ x < 2 ^ (q + 52) := by
  have hpos : (0 : ℚ) < 2 ^ q := by positivity
  have hleast : -1074 ≤ target n e := le_max_right _ _
  have hlt := h.lt_target
  have hq : -1074 < q := by omega
  have hfull : 2 ^ 52 ≤ m := hc.full.resolve_left (by omega)
  have hunits := (hc.nearest hx).le
  have hbelow : x < 2 ^ (q + 52) := hlt.trans_le (zpow_le_zpow_right₀ one_le_two (by omega))
  have hm : m = 2 ^ 52 := by
    have hscaled : x / 2 ^ q < 2 ^ 52 := by
      rw [div_lt_iff₀ hpos, mul_comm]
      rwa [zpow_add₀ two_ne_zero] at hbelow
    have hcast : (m : ℚ) < 2 ^ 52 + 1 := by linarith
    have hnat : m < 2 ^ 52 + 1 := by exact_mod_cast hcast
    omega
  have habove : (2 : ℚ) ^ (q + 51) < x := by
    rw [hm] at hunits
    push_cast at hunits
    have hscaled : (2 : ℚ) ^ 51 < x / 2 ^ q := by linarith
    rw [lt_div_iff₀ hpos, mul_comm] at hscaled
    rwa [zpow_add₀ two_ne_zero]
  have hexp : q + 51 < target n e + 53 := (zpow_lt_zpow_iff_right₀ one_lt_two).1 (habove.trans hlt)
  exact ⟨by omega, hq, hm, hbelow⟩

end Target

/-- the second shift, for a mantissa that rounding gave one bit too many, decides what comes out -/
theorem roundWithAccuracy_of_shift {n : ℕ} {e : ℤ} {acc : Accuracy} (he : e ≤ target n e) {em : ExtendedMantissa}
    {q : ℤ}
    (h : shiftToTargetExponent Format.binary64
      (ExtendedMantissa.ofMantissaAndAccuracy n acc >>> (target n e - e).toNat).roundedMantissa (target n e) .exact
        = (em, q)) {m : ℕ} (hm : em.mantissa = m) (hpos : 0 < m) (s : Sign) :
    roundWithAccuracy Format.binary64 s n e acc = .finite s m q hpos := by
  subst hm
  simp only [roundWithAccuracy, shift_eq acc he, h]
  rw [dif_neg hpos.ne']

/-- **What lies in the interval of a double is rounded to that double** -/
theorem roundWithAccuracy_eq {m : ℕ} {q : ℤ} (hc : Canonical m q) {x : ℚ} (hx : (Decimal.span m q).Contains x)
    {n : ℕ} {e : ℤ} {acc : Accuracy} (h : Approximates n e acc x) (he : e ≤ target n e) (s : Sign) :
    roundWithAccuracy Format.binary64 s n e acc = .finite s m q (Nat.pos_of_ne_zero hc.ne_zero) := by
  have hrounded := (h.shifted he).nearest_rounded
  rcases (h.target_le_exponent hc hx he).eq_or_lt with htarget | hlow
  · rw [htarget] at hrounded
    have hfinal := hrounded.unique (hc.nearest hx)
    have hshift := shift_eq .exact hc.target_eq.ge
    rw [hc.target_eq, sub_self] at hshift
    refine roundWithAccuracy_of_shift he ?_ (mantissa_ofMantissaAndAccuracy m .exact) _ s
    rw [htarget, hfinal]
    exact hshift
  · -- the mantissa is rounded up to the power of two, which has one bit more
    obtain ⟨htarget, hq, hm, hbelow⟩ := h.of_target_lt hc hx hlow
    have hup : Nearest (2 ^ 53) (x / 2 ^ (q - 1)) := by
      have hend : x / 2 ^ (q - 1) < 2 ^ 53 := by
        rw [div_lt_iff₀ (by positivity), ← zpow_natCast, ← zpow_add₀ two_ne_zero]
        have hexp : ((53 : ℕ) : ℤ) + (q - 1) = q + 52 := by push_cast; ring
        rwa [hexp]
      have hstart := Canonical.quarter hx hm hq
      refine ⟨?_, ?_, fun _ => by norm_num⟩
      · push_cast
        linarith
      · push_cast
        linarith
    rw [htarget] at hrounded
    have hfinal := hrounded.unique hup
    have hshift := shift_eq (m := 2 ^ 53) .exact (show q - 1 ≤ target (2 ^ 53) (q - 1) by rw [target_two_pow hq]; omega)
    have hone : (q - (q - 1)).toNat = 1 := by omega
    rw [target_two_pow hq, hone] at hshift
    have hmantissa : (ExtendedMantissa.ofMantissaAndAccuracy (2 ^ 53) .exact >>> 1).mantissa = m := by
      rw [hm]
      rfl
    refine roundWithAccuracy_of_shift he ?_ hmantissa _ s
    rw [htarget, hfinal]
    exact hshift

end FrameLisp.Rounding
