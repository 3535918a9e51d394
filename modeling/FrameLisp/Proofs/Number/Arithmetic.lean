/-
Products and quotients of doubles.

A double is a word of 64 bits; to compute with it, it is taken apart into a sign, a mantissa and an exponent, and what
comes out is put together again.

Results:
- `unpack_of_ofBits`: taking apart gives what `Binary.ofBits` reads off the bits.
- `unpack_pack`: a double that is put together can be taken apart again.
- `mul_eq`, `div_eq`: a product or quotient that lies in the interval of a double is that double.
-/
import FrameLisp.Number.Binary
import FrameLisp.Proofs.Number.Rounding

namespace FrameLisp.Rounding

open Float.Model Float.Model.UnpackedFloat

/-! ## The fields of a word -/

theorem toNat_unpackMantissa (b : BitVec 64) :
    (@unpackMantissa Format.binary64 b).toNat = b.toNat % 2 ^ 52 := by
  simp [unpackMantissa, BitVec.extractLsb]

theorem toNat_unpackExponent (b : BitVec 64) :
    (@unpackExponent Format.binary64 b).toNat = b.toNat / 2 ^ 52 % 2 ^ 11 := by
  simp [unpackExponent, BitVec.extractLsb, Nat.shiftRight_eq_div_pow]

theorem toNat_unpackSign (b : BitVec 64) :
    (@unpackSign Format.binary64 b).toNat = b.toNat / 2 ^ 63 % 2 := by
  simp [unpackSign, BitVec.extractLsb, Nat.shiftRight_eq_div_pow]

/-- the sign of a double as arithmetic has it -/
def signOf (negative : Bool) : Sign := if negative then .negative else .positive

theorem ofBitVec_unpackSign (b : BitVec 64) :
    Sign.ofBitVec (@unpackSign Format.binary64 b) = signOf (decide (2 ^ 63 ≤ b.toNat)) := by
  have hb := b.isLt
  have hsign := toNat_unpackSign b
  by_cases h : 2 ^ 63 ≤ b.toNat
  · have hone : @unpackSign Format.binary64 b ≠ 0#1 := by
      intro hzero
      rw [hzero] at hsign
      simp only [BitVec.toNat_ofNat] at hsign
      omega
    rw [Sign.ofBitVec, if_neg hone, decide_eq_true h]
    rfl
  · have hzero : @unpackSign Format.binary64 b = 0#1 := by
      apply BitVec.eq_of_toNat_eq
      rw [hsign]
      simp only [BitVec.toNat_ofNat]
      omega
    rw [Sign.ofBitVec, if_pos hzero, decide_eq_false h]
    rfl

theorem exponent_eq_ones (b : BitVec 64) :
    @unpackExponent Format.binary64 b = -1#11 ↔ b.toNat / 2 ^ 52 % 2 ^ 11 = 2047 := by
  rw [← BitVec.toNat_inj, toNat_unpackExponent]
  rfl

theorem exponent_eq_zero (b : BitVec 64) :
    @unpackExponent Format.binary64 b = 0#11 ↔ b.toNat / 2 ^ 52 % 2 ^ 11 = 0 := by
  rw [← BitVec.toNat_inj, toNat_unpackExponent]
  rfl

theorem mantissa_eq_zero (b : BitVec 64) :
    @unpackMantissa Format.binary64 b = 0#52 ↔ b.toNat % 2 ^ 52 = 0 := by
  rw [← BitVec.toNat_inj, toNat_unpackMantissa]
  rfl

theorem toNat_implicit (v : BitVec 52) : (1#1 ++ v).toNat = 2 ^ 52 + v.toNat := by
  rw [BitVec.toNat_append]
  have hv := v.isLt
  rw [← Nat.shiftLeft_add_eq_or_of_lt hv]
  rfl

/-- a word with a finite number other than zero, taken apart -/
theorem unpack_of_ofBits {b : BitVec 64} {negative : Bool} {m : ℕ} {q : ℤ}
    (h : Binary.ofBits b.toNat = .finite negative m q) (hm : m ≠ 0) :
    UnpackedFloat.unpack Format.binary64 b = .finite (signOf negative) m q (Nat.pos_of_ne_zero hm) ∧ Canonical m q ∧
      q ≤ 971 := by
  have hexponent := toNat_unpackExponent b
  have hmantissa := toNat_unpackMantissa b
  simp only [Binary.ofBits] at h
  split at h
  · split at h <;> cases h
  · next hfinite =>
    have hones := mt (exponent_eq_ones b).1 hfinite
    split at h
    · next hleast =>
      obtain ⟨rfl, rfl, rfl⟩ := Binary.finite.inj h
      have hzero := (exponent_eq_zero b).2 hleast
      have hne := mt (mantissa_eq_zero b).1 hm
      have hexp :
          ((b.toNat / 2 ^ 52 % 2 ^ 11 : ℕ) : ℤ) - ((Format.binary64.exponentBias : ℤ) + (52 : ℕ)) + 1 = -1074 := by
        have hbias : Format.binary64.exponentBias = 1023 := rfl
        rw [hbias]
        omega
      refine ⟨?_, ⟨hm, by omega, le_rfl, .inl rfl⟩, by norm_num⟩
      simp only [UnpackedFloat.unpack, if_neg hones, if_pos hzero, dif_neg hne, ofBitVec_unpackSign, hexponent,
        hmantissa, hexp]
      rfl
    · next hnormal =>
      obtain ⟨rfl, rfl, rfl⟩ := Binary.finite.inj h
      have hzero := mt (exponent_eq_zero b).1 hnormal
      refine ⟨?_, ⟨hm, by omega, by omega, .inr (by omega)⟩, by omega⟩
      simp only [UnpackedFloat.unpack, if_neg hones, if_neg hzero, ofBitVec_unpackSign, hexponent, toNat_implicit,
        hmantissa]
      rfl

/-- a word with a zero, taken apart -/
theorem unpack_of_ofBits_zero {b : BitVec 64} {negative : Bool} {q : ℤ}
    (h : Binary.ofBits b.toNat = .finite negative 0 q) :
    UnpackedFloat.unpack Format.binary64 b = .zero (signOf negative) := by
  simp only [Binary.ofBits] at h
  split at h
  · split at h <;> cases h
  · next hfinite =>
    have hones := mt (exponent_eq_ones b).1 hfinite
    split at h
    · next hleast =>
      obtain ⟨rfl, hfraction, rfl⟩ := Binary.finite.inj h
      have hzero := (exponent_eq_zero b).2 hleast
      have hmantissa := (mantissa_eq_zero b).2 hfraction
      simp only [UnpackedFloat.unpack, if_neg hones, if_pos hzero, dif_pos hmantissa, ofBitVec_unpackSign]
      rfl
    · have hmantissa := (Binary.finite.inj h).2.1
      omega

/-! ## Putting together -/

theorem unpackSign_packComponents (s : Sign) (e : BitVec 11) (v : BitVec 52) :
    Sign.ofBitVec (@unpackSign Format.binary64 (packComponents Format.binary64 s e v)) = s := by
  have hsign : @unpackSign Format.binary64 (packComponents Format.binary64 s e v) = s.toBitVec := by
    ext i hi
    have hi : i = 0 := by omega
    subst hi
    simp only [unpackSign, packComponents, BitVec.getElem_cast, BitVec.extractLsb, BitVec.getElem_extractLsb']
    change (s.toBitVec ++ e ++ v).getLsbD 63 = s.toBitVec[0]
    rw [BitVec.getLsbD_append, if_neg (by norm_num), BitVec.getLsbD_append, if_neg (by norm_num)]
    rfl
  rw [hsign]
  cases s <;> rfl

/-- the mantissa has all its bits, so the first one is implicit -/
theorem unpack_pack_full (s : Sign) {m : ℕ} {q : ℤ} (h : Canonical m q) (hq : q ≤ 971) (hpos : 0 < m)
    (hfull : 2 ^ 52 ≤ m) :
    UnpackedFloat.unpack Format.binary64 (UnpackedFloat.pack Format.binary64 (.finite s m q hpos))
      = .finite s m q hpos := by
  have hleast := h.least
  have hbits := h.bits
  have hbias : Format.binary64.exponentBias = 1023 := rfl
  have hsize : Format.binary64.mantissaBits = 53 := rfl
  have hlog : m.log2 + 1 = 53 := by
    have hupper := (Nat.log2_lt h.ne_zero).2 hbits
    have hlower := (Nat.le_log2 h.ne_zero).2 hfull
    omega
  have hsmall : ¬ 2 ^ 11 ≤ (q + (1023 : ℕ) + (52 : ℕ)).toNat + 1 := by omega
  have hexponent : (BitVec.ofNat 11 (q + (1023 : ℕ) + (52 : ℕ)).toNat).toNat = (q + 1075).toNat := by
    rw [BitVec.toNat_ofNat, Nat.mod_eq_of_lt (by omega)]
    omega
  have hones : ¬ BitVec.ofNat 11 (q + (1023 : ℕ) + (52 : ℕ)).toNat = -1#11 := by
    intro heq
    have hall : (-1#11).toNat = 2047 := rfl
    rw [heq, hall] at hexponent
    omega
  have hzero : ¬ BitVec.ofNat 11 (q + (1023 : ℕ) + (52 : ℕ)).toNat = 0#11 := by
    intro heq
    have hnone : (0#11).toNat = 0 := rfl
    rw [heq, hnone] at hexponent
    omega
  have hmantissa : (1#1 ++ BitVec.ofNat 52 m).toNat = m := by
    rw [toNat_implicit, BitVec.toNat_ofNat]
    omega
  have hexp : (((q + 1075).toNat : ℕ) : ℤ) - ((1023 : ℕ) + (52 : ℕ)) = q := by omega
  simp only [UnpackedFloat.pack, hbias, hsize, hlog, if_neg hsmall, if_true, UnpackedFloat.unpack,
    unpackExponent_packComponents, unpackMantissa_packComponents, if_neg hones, if_neg hzero,
    unpackSign_packComponents, hexponent, hexp, hmantissa]

/-- the mantissa has fewer bits, at the least exponent -/
theorem unpack_pack_least (s : Sign) {m : ℕ} (hpos : 0 < m) (hless : m < 2 ^ 52) :
    UnpackedFloat.unpack Format.binary64 (UnpackedFloat.pack Format.binary64 (.finite s m (-1074) hpos))
      = .finite s m (-1074) hpos := by
  have hbias : Format.binary64.exponentBias = 1023 := rfl
  have hsize : Format.binary64.mantissaBits = 53 := rfl
  have hlog : ¬ m.log2 + 1 = 53 := by
    have hupper := (Nat.log2_lt hpos.ne').2 hless
    omega
  have hsmall : ¬ 2 ^ 11 ≤ ((-1074 : ℤ) + (1023 : ℕ) + (52 : ℕ)).toNat + 1 := by omega
  have hones : ¬ (0#11 : BitVec 11) = -1#11 := by decide
  have hmantissa : (BitVec.ofNat 52 m).toNat = m := by rw [BitVec.toNat_ofNat, Nat.mod_eq_of_lt hless]
  have hne : ¬ BitVec.ofNat 52 m = 0#52 := by
    intro heq
    rw [heq] at hmantissa
    exact hpos.ne hmantissa
  simp only [UnpackedFloat.pack, hbias, hsize, hlog, if_neg hsmall, if_false, UnpackedFloat.unpack,
    unpackExponent_packComponents, unpackMantissa_packComponents, if_neg hones, if_true, dif_neg hne,
    unpackSign_packComponents, hmantissa]
  rfl

/-- a double that is put together can be taken apart again -/
theorem unpack_pack (s : Sign) {m : ℕ} {q : ℤ} (h : Canonical m q) (hq : q ≤ 971) (hpos : 0 < m) :
    UnpackedFloat.unpack Format.binary64 (UnpackedFloat.pack Format.binary64 (.finite s m q hpos))
      = .finite s m q hpos := by
  by_cases hfull : 2 ^ 52 ≤ m
  · exact unpack_pack_full s h hq hpos hfull
  · obtain rfl : q = -1074 := h.full.resolve_right hfull
    exact unpack_pack_least s hpos (Nat.lt_of_not_le hfull)

/-! ## Products and quotients -/

/-- a product that lies in the interval of a double -/
theorem mul_eq {m : ℕ} {q : ℤ} (hc : Canonical m q) {m₁ m₂ : ℕ} {e₁ e₂ : ℤ}
    (hx : (Decimal.span m q).Contains (m₁ * 2 ^ e₁ * (m₂ * 2 ^ e₂))) (he : e₁ + e₂ ≤ target (m₁ * m₂) (e₁ + e₂))
    (h₁ : 0 < m₁) (h₂ : 0 < m₂) :
    UnpackedFloat.mul Format.binary64 (.finite .positive m₁ e₁ h₁) (.finite .positive m₂ e₂ h₂)
      = .finite .positive m q (Nat.pos_of_ne_zero hc.ne_zero) := by
  have hexact : Approximates (m₁ * m₂) (e₁ + e₂) .exact (m₁ * 2 ^ e₁ * (m₂ * 2 ^ e₂)) := by
    have happrox := approximates_exact (m₁ * m₂) (e₁ + e₂)
    have hvalue : ((m₁ * m₂ : ℕ) : ℚ) * 2 ^ (e₁ + e₂) = m₁ * 2 ^ e₁ * (m₂ * 2 ^ e₂) := by
      rw [zpow_add₀ two_ne_zero]
      push_cast
      ring
    rwa [hvalue] at happrox
  exact roundWithAccuracy_eq hc hx hexact he _

/-- whole quotient and rest say of a quotient whether it is in the lower or the upper half of a unit -/
theorem represents_div (n : ℕ) {d : ℕ} (hd : 0 < d) :
    Represents (ExtendedMantissa.ofMantissaAndAccuracy (n / d) (accuracyOfFraction (n % d) d)) ((n : ℚ) / d) := by
  have hpos : (0 : ℚ) < d := by exact_mod_cast hd
  have hrest : ((n % d : ℕ) : ℚ) / d < 1 := by
    rw [div_lt_one hpos]
    exact_mod_cast Nat.mod_lt n hd
  have hsplit : (n : ℚ) / d = (n / d : ℕ) + (n % d : ℕ) / d := by
    have hnat : (n : ℚ) = d * (n / d : ℕ) + (n % d : ℕ) := by exact_mod_cast (Nat.div_add_mod n d).symm
    rw [hnat]
    field_simp
  rw [hsplit]
  rw [accuracyOfFraction]
  by_cases hzero : n % d = 0
  · rw [if_pos hzero, hzero]
    constructor <;> simp [ExtendedMantissa.ofMantissaAndAccuracy]
  · have hmore : (0 : ℚ) < (n % d : ℕ) / d := by
      have hnat : (0 : ℚ) < (n % d : ℕ) := by exact_mod_cast Nat.pos_of_ne_zero hzero
      positivity
    rw [if_neg hzero]
    rcases lt_trichotomy (2 * (n % d)) d with hhalf | hhalf | hhalf
    · have hlow : ((n % d : ℕ) : ℚ) / d < 1 / 2 := by
        rw [div_lt_iff₀ hpos]
        have hcast : 2 * ((n % d : ℕ) : ℚ) < d := by exact_mod_cast hhalf
        linarith
      rw [compare_lt_iff_lt.2 hhalf]
      constructor <;> simp only [ExtendedMantissa.ofMantissaAndAccuracy, half_false, add_zero]
      · linarith
      · linarith
      · simp [hmore.ne']
    · have hmid : ((n % d : ℕ) : ℚ) / d = 1 / 2 := by
        rw [div_eq_iff hpos.ne']
        have hcast : 2 * ((n % d : ℕ) : ℚ) = d := by exact_mod_cast hhalf
        linarith
      rw [compare_eq_iff_eq.2 hhalf, hmid]
      constructor <;> simp [ExtendedMantissa.ofMantissaAndAccuracy]
    · have hhigh : (1 / 2 : ℚ) < (n % d : ℕ) / d := by
        rw [lt_div_iff₀ hpos]
        have hcast : (d : ℚ) < 2 * (n % d : ℕ) := by exact_mod_cast hhalf
        linarith
      rw [compare_gt_iff_gt.2 hhalf]
      constructor <;> simp only [ExtendedMantissa.ofMantissaAndAccuracy, half_true]
      · linarith
      · linarith
      · have hne := hhigh.ne'
        simpa using hne

/-- the quotient of the mantissas, the dividend shifted, says of the quotient what a mantissa can say -/
theorem approximates_div (m₁ : ℕ) (e₁ : ℤ) {m₂ : ℕ} (e₂ : ℤ) (h₂ : 0 < m₂) {t : ℤ} {k : ℕ} (hshift : e₁ - e₂ = t + k) :
    Approximates ((m₁ <<< k) / m₂) t (accuracyOfFraction ((m₁ <<< k) % m₂) m₂) (m₁ * 2 ^ e₁ / (m₂ * 2 ^ e₂)) := by
  have hpos : (0 : ℚ) < m₂ := by exact_mod_cast h₂
  have hrepresents := represents_div (m₁ <<< k) h₂
  have hvalue : ((m₁ <<< k : ℕ) : ℚ) / m₂ = m₁ * 2 ^ e₁ / (m₂ * 2 ^ e₂) / 2 ^ t := by
    have hexp : e₁ = e₂ + t + k := by omega
    have hpow : (2 : ℚ) ^ e₁ = 2 ^ e₂ * 2 ^ t * 2 ^ k := by
      rw [← zpow_natCast, ← zpow_add₀ two_ne_zero, ← zpow_add₀ two_ne_zero, hexp]
    rw [Nat.shiftLeft_eq, hpow]
    push_cast
    field_simp
  rwa [hvalue] at hrepresents

theorem two_pow_lt_div {m₁ m₂ : ℕ} (e₁ e₂ : ℤ) (h₁ : 0 < m₁) (h₂ : 0 < m₂) :
    (2 : ℚ) ^ ((m₁.log2 : ℤ) + e₁ - (m₂.log2 + 1 + e₂)) < m₁ * 2 ^ e₁ / (m₂ * 2 ^ e₂) := by
  have hpos : (0 : ℚ) < m₂ := by exact_mod_cast h₂
  have hbits₁ : (2 : ℚ) ^ m₁.log2 ≤ m₁ := by exact_mod_cast Nat.log2_self_le h₁.ne'
  have hbits₂ : (m₂ : ℚ) < 2 ^ ((m₂.log2 : ℤ) + 1) := by exact_mod_cast (Nat.lt_log2_self (n := m₂))
  rw [zpow_sub₀ two_ne_zero, zpow_add₀ two_ne_zero, zpow_add₀ two_ne_zero, zpow_natCast]
  apply div_lt_div₀'
  · gcongr
  · gcongr
  · positivity
  · positivity

/-- a quotient that lies in the interval of a double -/
theorem div_eq {m : ℕ} {q : ℤ} (hc : Canonical m q) {m₁ m₂ : ℕ} {e₁ e₂ : ℤ} (h₁ : 0 < m₁) (h₂ : 0 < m₂)
    (hx : (Decimal.span m q).Contains (m₁ * 2 ^ e₁ / (m₂ * 2 ^ e₂))) :
    UnpackedFloat.div Format.binary64 (.finite .positive m₁ e₁ h₁) (.finite .positive m₂ e₂ h₂)
      = .finite .positive m q (Nat.pos_of_ne_zero hc.ne_zero) := by
  -- the exponent of the quotient, low enough for 53 bits
  set t := min (e₁ - e₂) (Format.binary64.targetExponent (totalExponent m₁ e₁ - totalExponent m₂ e₂)) with ht
  set k := (e₁ - e₂ - t).toNat with hk
  have hle : t ≤ e₁ - e₂ := min_le_left _ _
  have hshift : e₁ - e₂ = t + k := by omega
  have happrox := approximates_div m₁ e₁ e₂ h₂ hshift
  have htarget : t ≤ target ((m₁ <<< k) / m₂) t := by
    have hexp := (zpow_lt_zpow_iff_right₀ one_lt_two).1 ((two_pow_lt_div e₁ e₂ h₁ h₂).trans happrox.lt_two_pow)
    have htop : t ≤ max (totalExponent m₁ e₁ - totalExponent m₂ e₂ - 53) (-1074) := by
      rw [← targetExponent_binary64]
      exact min_le_right _ _
    rw [totalExponent, totalExponent] at htop
    rw [target]
    omega
  exact roundWithAccuracy_eq hc hx happrox htarget _

end FrameLisp.Rounding
