/-
  Reckon.Proofs.Arithmetic.Power — what a power comes to, and which powers are refused.

  A negative power of zero is a division by zero. A power of a base beyond one in magnitude
  is refused if its exponent has more than 32 bits or its estimate is over the limit. Any
  other power is exact: the rational power truncated toward zero (`power_eq`).

  The estimate is never more than twice the length of the power (`estimate_lt`), so a power
  that is refused for its estimate is longer than half the limit.
-/

import Reckon.Proofs.Arithmetic.BitLength

namespace Reckon

/-! ## Truncation -/

/-- The integer next to a rational number on the side of zero. -/
def truncate (q : ℚ) : Int := if q < 0 then ⌈q⌉ else ⌊q⌋

@[simp] theorem truncate_int (n : Int) : truncate n = n := by
  simp [truncate]

theorem truncate_small {q : ℚ} (h : |q| < 1) : truncate q = 0 := by
  obtain ⟨hlow, hhigh⟩ := abs_lt.mp h
  unfold truncate
  split
  · next hneg =>
    exact Int.ceil_eq_zero_iff.mpr ⟨hlow, hneg.le⟩
  · next hpos =>
    exact Int.floor_eq_zero_iff.mpr ⟨not_lt.mp hpos, hhigh⟩

/-! ## Rational powers of integers -/

theorem rat_pow_nonneg (b : Int) {e : Int} (he : 0 ≤ e) : (b : ℚ) ^ e = ((b ^ e.toNat : Int) : ℚ) := by
  rw [Int.cast_pow, ← zpow_natCast, Int.toNat_of_nonneg he]

theorem truncate_pow_neg {b e : Int} (hb : 1 < b.natAbs) (he : e < 0) : truncate ((b : ℚ) ^ e) = 0 := by
  refine truncate_small ?_
  have hbase : 1 < |(b : ℚ)| := by
    rw [← Int.cast_abs, Int.abs_eq_natAbs]
    exact_mod_cast hb
  rw [abs_zpow]
  exact zpow_lt_one_of_neg₀ hbase he

theorem rat_pow_unit {b : Int} (hb : b.natAbs = 1) (e : Int) :
    (b : ℚ) ^ e = ((if b < 0 ∧ e % 2 = 1 then -1 else 1 : Int) : ℚ) := by
  rcases Int.natAbs_eq_iff.mp hb with rfl | rfl
  · simp
  · rcases Int.emod_two_eq_zero_or_one e with he | he
    · have heven : Even e := Int.even_iff.mpr he
      simp [he, heven.neg_one_zpow]
    · have hodd : Odd e := Int.odd_iff.mpr he
      simp [he, hodd.neg_one_zpow]

/-! ## What a power comes to -/

variable (limits : Limits)

theorem power_eq (b e : Int) : power limits b e =
    if b = 0 ∧ e < 0 then .error .divisionByZero
    else if 1 < b.natAbs ∧ 0 ≤ e ∧
        (UInt32.size ≤ e.toNat ∨ limits.maxPowerBits.toNat < powerBits b e.toNat) then .error .arithmeticOverflow
    else .ok (truncate ((b : ℚ) ^ e)) := by
  by_cases hzero : b = 0
  · subst hzero
    rw [power, if_pos rfl]
    by_cases hneg : e < 0
    · simp [hneg]
    by_cases he : e = 0
    · simpa [he] using (truncate_int 1).symm
    · simpa [hneg, he, zero_zpow e he] using (truncate_int 0).symm
  have hdiv : ¬(b = 0 ∧ e < 0) := fun h => hzero h.1
  rw [if_neg hdiv]
  by_cases hone : b.natAbs = 1
  · have hsmall : ¬1 < b.natAbs := by omega
    rw [power, if_neg hzero, if_pos hone, rat_pow_unit hone, truncate_int]
    simp [hsmall]
  have hb : 1 < b.natAbs := by omega
  by_cases hneg : e < 0
  · have he : ¬0 ≤ e := by omega
    rw [power, if_neg hzero, if_neg hone, if_pos hneg, truncate_pow_neg hb hneg]
    simp [he]
  · have he : 0 ≤ e := by omega
    rw [power_checked limits hb he, rat_pow_nonneg b he, truncate_int]
    simp [hb, he]

/-! ## The estimate -/

theorem lt_bit_length_iff {v : Int} {k : Nat} : k < bitLength v ↔ 2 ^ k ≤ v.natAbs := by
  rw [← Nat.not_le, bit_length_le_iff, Nat.not_lt]

/-- A power of `b` has as many digits as the digits of `b` after the first one ask for, and
    one more. -/
theorem lt_bit_length_pow {b : Int} (hb : b ≠ 0) (e : Nat) : (bitLength b - 1) * e < bitLength (b ^ e) := by
  have hpos : 0 < bitLength b := lt_bit_length_iff.mpr (Int.natAbs_pos.mpr hb)
  have hbase : 2 ^ (bitLength b - 1) ≤ b.natAbs := lt_bit_length_iff.mp (by omega)
  rw [lt_bit_length_iff, Int.natAbs_pow, Nat.pow_mul]
  exact Nat.pow_le_pow_left hbase e

theorem estimate_lt {b : Int} (hb : 1 < b.natAbs) (e : Nat) : bitLength b * e < 2 * bitLength (b ^ e) := by
  have hlength : 1 < bitLength b := lt_bit_length_iff.mpr hb
  have hpow := lt_bit_length_pow (b := b) (by omega) e
  calc bitLength b * e ≤ 2 * (bitLength b - 1) * e := Nat.mul_le_mul_right e (by omega)
    _ = 2 * ((bitLength b - 1) * e) := Nat.mul_assoc _ _ _
    _ < 2 * bitLength (b ^ e) := by omega

/-! ## Which powers are refused -/

variable {limits : Limits} {b e : Int}

theorem power_division_iff : power limits b e = .error .divisionByZero ↔ b = 0 ∧ e < 0 := by
  rw [power_eq]
  split
  · next h => exact iff_of_true rfl h
  · next h =>
    refine iff_of_false ?_ h
    split <;> simp

theorem power_overflow_iff : power limits b e = .error .arithmeticOverflow ↔
    1 < b.natAbs ∧ 0 ≤ e ∧ (UInt32.size ≤ e.toNat ∨ limits.maxPowerBits.toNat < powerBits b e.toNat) := by
  rw [power_eq]
  split
  · next h => exact iff_of_false (by simp) (by omega)
  · split
    · next h => exact iff_of_true rfl h
    · next h => exact iff_of_false (by simp) h

theorem power_eq_ok {v : Int} (h : power limits b e = .ok v) : v = truncate ((b : ℚ) ^ e) := by
  rw [power_eq] at h
  repeat' split at h
  all_goals cases h
  rfl

/-- With an exponent of 32 bits it is the estimate that refuses a power. -/
theorem limit_lt_of_overflow (he : e < 2 ^ 32) (h : power limits b e = .error .arithmeticOverflow) :
    limits.maxPowerBits.toNat < 2 * bitLength (b ^ e.toNat) := by
  obtain ⟨hb, hpos, hcause⟩ := power_overflow_iff.mp h
  have hsize : UInt32.size = 2 ^ 32 := rfl
  have hestimate : limits.maxPowerBits.toNat < powerBits b e.toNat := hcause.resolve_left (by omega)
  have hlength := estimate_lt hb e.toNat
  unfold powerBits at hestimate
  omega

theorem power_of_length_le (hpos : 0 ≤ e) (he : e < 2 ^ 32)
    (h : bitLength (b ^ e.toNat) ≤ limits.maxPowerBits.toNat / 2) : power limits b e = .ok (b ^ e.toNat) := by
  have hdiv : ¬(b = 0 ∧ e < 0) := by omega
  have hover : ¬(1 < b.natAbs ∧ 0 ≤ e ∧
      (UInt32.size ≤ e.toNat ∨ limits.maxPowerBits.toNat < powerBits b e.toNat)) := by
    intro hover
    have := limit_lt_of_overflow he (power_overflow_iff.mpr hover)
    omega
  rw [power_eq, if_neg hdiv, if_neg hover, rat_pow_nonneg b hpos, truncate_int]

/-- Only a negative power of zero is a division by zero. A power that is not refused is
    exact, and within the limit unless it is small. With an exponent of 32 bits no power is
    refused that is at most half as long as the limit, and with a longer one every power is
    whose base is beyond one; bases up to one and negative exponents are exempt. -/
theorem power_exact (limits : Limits) (b e : Int) :
    (power limits b e = .error .divisionByZero ↔ b = 0 ∧ e < 0) ∧
      (∀ v, power limits b e = .ok v → v = truncate ((b : ℚ) ^ e) ∧
        (limits.maxPowerBits.toNat < 2 ^ 64 - 1 → v.natAbs ≤ 1 ∨ bitLength v ≤ limits.maxPowerBits.toNat)) ∧
      (b.natAbs ≤ 1 ∨ e < 0 → power limits b e ≠ .error .arithmeticOverflow) ∧
      (0 ≤ e → e < 2 ^ 32 →
        (power limits b e = .error .arithmeticOverflow → limits.maxPowerBits.toNat < 2 * bitLength (b ^ e.toNat)) ∧
          (bitLength (b ^ e.toNat) ≤ limits.maxPowerBits.toNat / 2 → power limits b e = .ok (b ^ e.toNat))) ∧
      (1 < b.natAbs → 2 ^ 32 ≤ e → power limits b e = .error .arithmeticOverflow) := by
  refine ⟨power_division_iff, ?_, ?_, ?_, ?_⟩
  · intro v h
    exact ⟨power_eq_ok h, fun hlimit => bit_length_of_power hlimit h⟩
  · intro hexempt h
    obtain ⟨hb, he, -⟩ := power_overflow_iff.mp h
    omega
  · intro hpos he
    exact ⟨limit_lt_of_overflow he, power_of_length_le hpos he⟩
  · intro hb he
    have hsize : UInt32.size = 2 ^ 32 := rfl
    exact power_overflow_iff.mpr ⟨hb, by omega, Or.inl (by omega)⟩

/-- The power `2 ^ 9` has ten digits and is estimated at eighteen: a limit of sixteen
    refuses it, one of twenty does not. -/
theorem power_exact_estimate :
    power ⟨16⟩ 2 7 = .ok 128 ∧ (128 : Int) = truncate (((2 : Int) : ℚ) ^ (7 : Int)) ∧
      ((128 : Int).natAbs ≤ 1 ∨ bitLength 128 ≤ 16) ∧ power ⟨16⟩ 2 9 = .error .arithmeticOverflow ∧
      16 < 2 * bitLength (2 ^ 9) ∧ power ⟨20⟩ 2 9 = .ok (2 ^ 9) ∧
      power ⟨0⟩ (-3) (-5) ≠ .error .arithmeticOverflow ∧
      power ⟨18446744073709551615⟩ (-2) 4294967296 = .error .arithmeticOverflow := by
  have hok : power ⟨16⟩ 2 7 = .ok 128 := by rfl
  have hover : power ⟨16⟩ 2 9 = .error .arithmeticOverflow := by rfl
  have hlength : bitLength (2 ^ (9 : Int).toNat) ≤ (⟨20⟩ : Limits).maxPowerBits.toNat / 2 := by decide +kernel
  obtain ⟨htruncate, hbits⟩ := (power_exact ⟨16⟩ 2 7).2.1 128 hok
  have hhalf := ((power_exact ⟨16⟩ 2 9).2.2.2.1 (by decide) (by decide)).1 hover
  have hwithin := ((power_exact ⟨20⟩ 2 9).2.2.2.1 (by decide) (by decide)).2 hlength
  have hexempt := (power_exact ⟨0⟩ (-3) (-5)).2.2.1 (Or.inr (by decide))
  have hlong := (power_exact ⟨18446744073709551615⟩ (-2) 4294967296).2.2.2.2 (by decide) (by decide)
  exact ⟨hok, htruncate, hbits (by decide), hover, hhalf, hwithin, hexempt, hlong⟩

end Reckon
