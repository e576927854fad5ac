/-
  Reckon.Proofs.Arithmetic.BitLength — how long results are in binary.

  `bit_length_le_iff` says what the length is; from it, a sum is at most one digit longer
  than the longer operand, a product at most as long as both together, a quotient no
  longer than the dividend. A power is bounded by the limit that it was checked against
  (`bit_length_power_le`), as long as the limit is under the largest estimate, and so no
  operator gives more than its operands have together (`bit_length_apply_le`).
-/

import Reckon.Arithmetic.Lemmas

namespace Reckon

/-! ## Lengths -/

theorem bit_length_le_iff {v : Int} {k : Nat} : bitLength v ≤ k ↔ v.natAbs < 2 ^ k := by
  unfold bitLength
  by_cases h : v = 0
  · subst h
    simp
  · have hn : v.natAbs ≠ 0 := Int.natAbs_ne_zero.mpr h
    rw [if_neg h, ← Nat.log2_lt hn]
    exact Nat.succ_le_iff

theorem lt_bit_length (v : Int) : v.natAbs < 2 ^ bitLength v :=
  bit_length_le_iff.mp (Nat.le_refl _)

theorem bit_length_le_of_nat_abs_le {v w : Int} (h : v.natAbs ≤ w.natAbs) : bitLength v ≤ bitLength w :=
  bit_length_le_iff.mpr (Nat.lt_of_le_of_lt h (lt_bit_length w))

theorem bit_length_add_le (a b : Int) : bitLength (a + b) ≤ max (bitLength a) (bitLength b) + 1 := by
  rw [bit_length_le_iff, Nat.pow_succ]
  have ha : a.natAbs < 2 ^ max (bitLength a) (bitLength b) := bit_length_le_iff.mp (Nat.le_max_left _ _)
  have hb : b.natAbs < 2 ^ max (bitLength a) (bitLength b) := bit_length_le_iff.mp (Nat.le_max_right _ _)
  have hsum := Int.natAbs_add_le a b
  omega

@[simp] theorem bit_length_neg (a : Int) : bitLength (-a) = bitLength a :=
  Nat.le_antisymm (bit_length_le_of_nat_abs_le (by simp)) (bit_length_le_of_nat_abs_le (by simp))

theorem bit_length_mul_le (a b : Int) : bitLength (a * b) ≤ bitLength a + bitLength b := by
  rw [bit_length_le_iff, Int.natAbs_mul, Nat.pow_add]
  exact Nat.mul_lt_mul'' (lt_bit_length a) (lt_bit_length b)

theorem bit_length_tdiv_le (a b : Int) : bitLength (a.tdiv b) ≤ bitLength a := by
  refine bit_length_le_of_nat_abs_le ?_
  rw [Int.natAbs_tdiv]
  exact Nat.div_le_self _ _

theorem bit_length_pow_le (b : Int) {e : Nat} (h : e ≠ 0) : bitLength (b ^ e) ≤ bitLength b * e := by
  rw [bit_length_le_iff, Int.natAbs_pow, Nat.pow_mul]
  exact Nat.pow_lt_pow_left (lt_bit_length b) h

/-! ## Powers and the other operators -/

variable {limits : Limits}

/-- A power that is not refused is small, or its estimate was within the limit. -/
theorem power_cases {b e v : Int} (h : power limits b e = .ok v) :
    v.natAbs ≤ 1 ∨ powerBits b e.toNat ≤ limits.maxPowerBits.toNat ∧ v = b ^ e.toNat := by
  by_cases hexempt : b.natAbs ≤ 1 ∨ e < 0
  · obtain ⟨r, hr, hsmall⟩ := power_exempt hexempt
    exact Or.inl (hsmall v ((hr limits).symm.trans h))
  · obtain ⟨hb, he⟩ := not_or.mp hexempt
    rw [power_checked limits (by omega) (by omega)] at h
    split at h
    · cases h
    · cases h
      exact Or.inr ⟨by omega, rfl⟩

/-- Below the largest estimate the limit bounds the length of any power that is not small. -/
theorem bit_length_of_power (hlimit : limits.maxPowerBits.toNat < UInt64.size - 1) {b e v : Int}
    (h : power limits b e = .ok v) : v.natAbs ≤ 1 ∨ bitLength v ≤ limits.maxPowerBits.toNat := by
  rcases power_cases h with hv | ⟨hbits, rfl⟩
  · exact Or.inl hv
  · by_cases he : e.toNat = 0
    · rw [he, pow_zero]
      exact Or.inl (Nat.le_refl 1)
    · -- an estimate below the largest one is the product itself
      have hlen := bit_length_pow_le b he
      unfold powerBits at hbits
      omega

theorem bit_length_power_le (hlimit : limits.maxPowerBits.toNat < UInt64.size - 1) {b e v : Int}
    (h : power limits b e = .ok v) : bitLength v ≤ max 1 limits.maxPowerBits.toNat := by
  rcases bit_length_of_power hlimit h with hv | hv
  · have hlen : bitLength v ≤ 1 := bit_length_le_iff.mpr (by omega)
    omega
  · omega

/-- A result is at most as long as its operands may be together. -/
theorem bit_length_apply_le (hlimit : limits.maxPowerBits.toNat < UInt64.size - 1) {o : Operator} {l r v : Int}
    (h : o.apply limits l r = .ok v) {x y : Nat} (hl : bitLength l ≤ x) (hr : bitLength r ≤ y)
    (hx : max 1 limits.maxPowerBits.toNat ≤ x) (hy : 1 ≤ y) : bitLength v ≤ x + y := by
  cases o with
  | add =>
    cases h
    have := bit_length_add_le l r
    omega
  | sub =>
    cases h
    have := bit_length_add_le l (-r)
    rw [bit_length_neg, ← Int.sub_eq_add_neg] at this
    omega
  | mul =>
    cases h
    have := bit_length_mul_le l r
    omega
  | div =>
    simp only [Operator.apply] at h
    split at h
    · cases h
    · cases h
      have := bit_length_tdiv_le l r
      omega
  | pow =>
    have := bit_length_power_le hlimit h
    omega

end Reckon
