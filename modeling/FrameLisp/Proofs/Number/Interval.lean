/-
The shortest decimal lies in the interval.

The arithmetic on natural numbers that looks for the shortest decimal is about rationals: `Span.Contains` says which
rationals belong to the interval of a double, `Span.point` is the double itself.

Results:
- `Span.inside_iff`: the test on natural numbers is the test on rationals.
- `Span.leading_le`: the power of ten of the leading digit is not above the double.
- `Span.exists_nearestOn`: on a grid of seventeen digits one of the two neighbours lies in the interval, which reaches
  at least one part in `2 ^ 54` to either side, more than half a step of the grid.
- `shortest_contained`: so what the search finds is a decimal of the interval.
-/
import Mathlib
import FrameLisp.Number.Shortest

namespace FrameLisp.Decimal

/-- the rational that a decimal writes -/
def value (d : Decimal) : ℚ := d.digits * 10 ^ d.exponent

/-- a power as a quotient of two natural ones -/
theorem zpow_eq_div (a : ℚ) (n : ℤ) : a ^ n = a ^ n.toNat / a ^ (-n).toNat := by
  rcases Int.le_total 0 n with h | h
  · have hneg : (-n).toNat = 0 := by omega
    rw [hneg, pow_zero, div_one, ← zpow_natCast, Int.toNat_of_nonneg h]
  · have hpos : n.toNat = 0 := by omega
    have hcast : ((-n).toNat : ℤ) = -n := by omega
    rw [hpos, pow_zero, one_div, ← zpow_natCast, hcast, zpow_neg, inv_inv]

/-- the unit of an interval is a quarter of the last place of its double -/
theorem two_pow_eq (q : ℤ) : (2 : ℚ) ^ q = 4 * 2 ^ (q - 2) := by
  rw [zpow_sub₀ two_ne_zero]
  ring

namespace Span

variable (s : Span)

/-- the rationals of the interval -/
def Contains (x : ℚ) : Prop :=
  if s.closed then s.low * 2 ^ s.unit ≤ x ∧ x ≤ s.high * 2 ^ s.unit
  else s.low * 2 ^ s.unit < x ∧ x < s.high * 2 ^ s.unit

/-- the double whose interval it is -/
def point : ℚ := s.value * 2 ^ s.unit

variable {s} in
theorem Contains.of_lt {x : ℚ} (hlow : s.low * 2 ^ s.unit < x) (hhigh : x < s.high * 2 ^ s.unit) : s.Contains x := by
  rw [Contains]
  split
  · exact ⟨hlow.le, hhigh.le⟩
  · exact ⟨hlow, hhigh⟩

variable {s} in
/-- the ends belong to the interval or not -/
theorem Contains.le {x : ℚ} (h : s.Contains x) : s.low * 2 ^ s.unit ≤ x ∧ x ≤ s.high * 2 ^ s.unit := by
  rw [Contains] at h
  split at h
  · exact h
  · exact ⟨h.1.le, h.2.le⟩

/-! ## Grids -/

theorem factor_pos (p : ℤ) : 0 < s.factor p := by
  simp only [factor, Nat.pow_eq]
  positivity

theorem step_pos (p : ℤ) : 0 < s.step p := by
  simp only [step, Nat.pow_eq]
  positivity

/-- a step of the grid is `10 ^ p`, on the scale where the factor stands for a unit -/
theorem step_mul (p : ℤ) : (s.step p : ℚ) * 2 ^ s.unit = 10 ^ p * s.factor p := by
  have htwo : (2 : ℚ) ^ (-s.unit).toNat ≠ 0 := by positivity
  have hten : (10 : ℚ) ^ (-p).toNat ≠ 0 := by positivity
  simp only [step, factor, Nat.pow_eq]
  push_cast
  rw [zpow_eq_div 2 s.unit, zpow_eq_div 10 p]
  field_simp

theorem mul_factor_le_iff (a k : ℕ) (p : ℤ) :
    a * s.factor p ≤ k * s.step p ↔ (a : ℚ) * 2 ^ s.unit ≤ k * 10 ^ p := by
  have hunit : (0 : ℚ) < 2 ^ s.unit := by positivity
  have hfactor : (0 : ℚ) < s.factor p := by exact_mod_cast s.factor_pos p
  have hstep := s.step_mul p
  rw [← Nat.cast_le (α := ℚ), ← mul_le_mul_iff_of_pos_right hunit]
  push_cast
  rw [mul_assoc (k : ℚ), hstep, mul_right_comm, ← mul_assoc, mul_le_mul_iff_of_pos_right hfactor]

theorem mul_step_le_iff (a k : ℕ) (p : ℤ) :
    k * s.step p ≤ a * s.factor p ↔ (k : ℚ) * 10 ^ p ≤ a * 2 ^ s.unit := by
  have hunit : (0 : ℚ) < 2 ^ s.unit := by positivity
  have hfactor : (0 : ℚ) < s.factor p := by exact_mod_cast s.factor_pos p
  have hstep := s.step_mul p
  rw [← Nat.cast_le (α := ℚ), ← mul_le_mul_iff_of_pos_right hunit]
  push_cast
  rw [mul_assoc (k : ℚ), hstep, mul_right_comm, ← mul_assoc, mul_le_mul_iff_of_pos_right hfactor]

/-- the test on natural numbers is the test on rationals -/
theorem inside_iff (p : ℤ) (k : ℕ) : s.inside p k = true ↔ s.Contains (k * 10 ^ p) := by
  simp only [inside, Contains]
  split
  · rw [Bool.and_eq_true, decide_eq_true_eq, decide_eq_true_eq, mul_factor_le_iff, mul_step_le_iff]
  · rw [Bool.and_eq_true, decide_eq_true_eq, decide_eq_true_eq, ← not_le, ← not_le, mul_factor_le_iff,
      mul_step_le_iff, not_le, not_le]

theorem nearestOn_contained {s : Span} {p : ℤ} {k : ℕ} (h : s.nearestOn p = some k) : s.Contains (k * 10 ^ p) :=
  (s.inside_iff p k).1 (nearestOn_inside h)

/-- a neighbour in the interval is found -/
theorem nearestOn_ne_none {p : ℤ}
    (h : s.inside p (s.value * s.factor p / s.step p) = true ∨
      s.inside p (s.value * s.factor p / s.step p + 1) = true) : s.nearestOn p ≠ none := by
  simp only [nearestOn]
  split
  · simp
  · simp
  · split_ifs <;> simp
  · simp_all

/-! ## The leading digit -/

/-- a natural number has as many digits as it takes -/
theorem pow_length_le {n : ℕ} (h : n ≠ 0) : 10 ^ (length n - 1) ≤ n := by
  by_contra hlt
  rcases Nat.eq_zero_or_pos (length n - 1) with hzero | hpos
  · rw [hzero, pow_zero] at hlt
    omega
  · have hle : length n ≤ length n - 1 := (Nat.length_toDigits_le_iff (by norm_num) hpos).2 (by omega)
    omega

theorem lt_pow_length (n : ℕ) : n < 10 ^ length n :=
  (Nat.length_toDigits_le_iff (by norm_num) Nat.length_toDigits_pos).1 le_rfl

/-- on the scale of whole numbers the double is a quotient -/
theorem point_eq : s.point = (s.value * s.factor 0 : ℕ) / (s.step 0 : ℕ) := by
  have hstep : (0 : ℚ) < s.step 0 := by exact_mod_cast s.step_pos 0
  have hmul := s.step_mul 0
  rw [zpow_zero, one_mul] at hmul
  rw [eq_div_iff hstep.ne', point, mul_assoc, mul_comm _ (s.step 0 : ℚ), hmul]
  push_cast
  rfl

/-- the leading digit stands for no more than the value -/
theorem leading_le (hvalue : s.value ≠ 0) : (10 : ℚ) ^ s.leading ≤ s.point := by
  have hone : (0 : ℚ) < s.step 0 := by exact_mod_cast s.step_pos 0
  have hx : s.value * s.factor 0 ≠ 0 := Nat.mul_ne_zero hvalue (s.factor_pos 0).ne'
  rw [point_eq, le_div_iff₀ hone]
  simp only [leading, Nat.pow_eq]
  generalize s.value * s.factor 0 = x at hx ⊢
  generalize s.step 0 = one at hone ⊢
  generalize he : (length x : ℤ) - length one = e
  split
  · next h =>
    have hcast : (one : ℚ) * 10 ^ e.toNat ≤ x * 10 ^ (-e).toNat := by exact_mod_cast h
    rw [zpow_eq_div, div_mul_eq_mul_div, div_le_iff₀ (by positivity), mul_comm]
    exact hcast
  · have hlow : (10 : ℚ) ^ (length x - 1) ≤ x := by exact_mod_cast pow_length_le hx
    have hhigh : (one : ℚ) ≤ 10 ^ length one := by exact_mod_cast (lt_pow_length one).le
    have hlen : 0 < length x := Nat.length_toDigits_pos
    have hexp : e - 1 + length one = (length x - 1 : ℕ) := by omega
    calc (10 : ℚ) ^ (e - 1) * one ≤ 10 ^ (e - 1) * 10 ^ length one := by gcongr
      _ = 10 ^ (length x - 1) := by rw [← zpow_natCast, ← zpow_add₀ (by norm_num), hexp, zpow_natCast]
      _ ≤ x := hlow

/-! ## Seventeen digits -/

/-- the interval reaches at least one part in `2 ^ 54` to either side of the double -/
structure Wide : Prop where
  value_ne : s.value ≠ 0
  low_le : s.value + 2 ^ 54 * s.low ≤ 2 ^ 54 * s.value
  le_high : 2 ^ 54 * s.value + s.value ≤ 2 ^ 54 * s.high

namespace Wide

variable {s}

/-- what is nearer than one part in `2 ^ 54` lies in the interval -/
theorem contains (h : s.Wide) {x : ℚ} (hx : 2 ^ 54 * |x - s.point| < s.point) : s.Contains x := by
  have hunit : (0 : ℚ) < 2 ^ s.unit := by positivity
  have hlow : (s.value : ℚ) * 2 ^ s.unit + 2 ^ 54 * (s.low * 2 ^ s.unit) ≤ 2 ^ 54 * (s.value * 2 ^ s.unit) := by
    have hcast : (s.value : ℚ) + 2 ^ 54 * s.low ≤ 2 ^ 54 * s.value := by exact_mod_cast h.low_le
    nlinarith
  have hhigh : (2 : ℚ) ^ 54 * (s.value * 2 ^ s.unit) + s.value * 2 ^ s.unit ≤ 2 ^ 54 * (s.high * 2 ^ s.unit) := by
    have hcast : (2 : ℚ) ^ 54 * s.value + s.value ≤ 2 ^ 54 * s.high := by exact_mod_cast h.le_high
    nlinarith
  rw [point] at hx
  have habove := le_abs_self (x - s.value * 2 ^ s.unit)
  have hbelow := neg_abs_le (x - s.value * 2 ^ s.unit)
  apply Contains.of_lt <;> linarith

/-- one of the two neighbours on a grid of seventeen digits is near enough -/
theorem exists_nearestOn (h : s.Wide) : s.nearestOn (s.leading - 16) ≠ none := by
  set p := s.leading - 16 with hp
  set k := s.value * s.factor p / s.step p with hk
  have hstep : (0 : ℚ) < 10 ^ p := by positivity
  -- seventeen digits: the double is at least `10 ^ 16` steps of the grid
  have hdigits : (10 : ℚ) ^ 16 * 10 ^ p ≤ s.point := by
    have hlead := s.leading_le h.value_ne
    rwa [show s.leading = 16 + p by omega, zpow_add₀ (by norm_num)] at hlead
  have hbelow : (k : ℚ) * 10 ^ p ≤ s.point := by
    rw [point, ← mul_step_le_iff]
    exact Nat.div_mul_le_self _ _
  have habove : s.point < (k + 1 : ℕ) * 10 ^ p := by
    rw [point, ← not_le, ← mul_step_le_iff, not_le]
    exact Nat.lt_mul_of_div_lt (Nat.lt_succ_self k) (s.step_pos p)
  apply s.nearestOn_ne_none
  rw [inside_iff, inside_iff]
  push_cast at habove ⊢
  by_cases hnear : 2 * (s.point - k * 10 ^ p) ≤ 10 ^ p
  · refine .inl (h.contains ?_)
    rw [abs_of_nonpos (by linarith)]
    linarith
  · refine .inr (h.contains ?_)
    rw [abs_of_nonneg (by linarith)]
    linarith

end Wide

end Span

/-! ## The shortest decimal -/

/-- the interval of `m * 2 ^ q` is a part in `2 ^ 54` to either side, as `m` has at most 53 bits -/
theorem span_wide {m : ℕ} (hm : m ≠ 0) (hbits : m < 2 ^ 53) (q : ℤ) : (span m q).Wide where
  value_ne := by simp only [span]; omega
  low_le := by simp only [span]; split_ifs <;> omega
  le_high := by simp only [span]; omega

/-- a double lies in its own interval -/
theorem span_contains_self {m : ℕ} (hm : m ≠ 0) (q : ℤ) : (span m q).Contains (m * 2 ^ q) := by
  have hlow : ((span m q).low : ℚ) < 4 * m := by
    have hnat : (span m q).low < 4 * m := by simp only [span]; split_ifs <;> omega
    exact_mod_cast hnat
  have hhigh : (4 * m : ℚ) < (span m q).high := by
    have hnat : 4 * m < (span m q).high := by simp only [span]; omega
    exact_mod_cast hnat
  have hpos : (0 : ℚ) < 2 ^ (q - 2) := by positivity
  rw [two_pow_eq, ← mul_assoc, mul_comm (m : ℚ)]
  exact .of_lt ((mul_lt_mul_iff_of_pos_right hpos).2 hlow) ((mul_lt_mul_iff_of_pos_right hpos).2 hhigh)

/-- the shortest decimal is one of the interval -/
theorem shortest_contained {m : ℕ} (hm : m ≠ 0) (hbits : m < 2 ^ 53) (q : ℤ) :
    (span m q).Contains (shortest m q).value := by
  let onGrid (n : ℕ) : Option Decimal :=
    ((span m q).nearestOn ((span m q).leading - n)).map fun k => ⟨k, (span m q).leading - n⟩
  have hshortest : shortest m q = ((List.range 17).findSome? onGrid).getD ⟨m, q⟩ := rfl
  have hlast : onGrid 16 ≠ none := fun h =>
    (span_wide hm hbits q).exists_nearestOn (Option.map_eq_none_iff.1 h)
  cases hfound : (List.range 17).findSome? onGrid with
  | none => exact absurd (List.findSome?_eq_none_iff.1 hfound 16 (by decide)) hlast
  | some d =>
    obtain ⟨n, -, hn⟩ := List.exists_of_findSome?_eq_some hfound
    obtain ⟨k, hk, rfl⟩ := Option.map_eq_some_iff.1 hn
    rw [hshortest, hfound]
    exact Span.nearestOn_contained hk

end FrameLisp.Decimal
