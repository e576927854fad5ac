/-
  Reckon.Arithmetic.Lemmas — powers, by what they are and by what the limit does to them.

  A power computed on magnitudes is the power (`int_pow_eq`). Some powers are exempt from
  the limit and small (`power_exempt`); on all others the limit decides and nothing else
  (`power_checked`).
-/

import Mathlib
import Reckon.Arithmetic

namespace Reckon

theorem neg_pow_eq (n : Int) (e : Nat) : (-n) ^ e = if e % 2 = 1 then -(n ^ e) else n ^ e := by
  induction e with
  | zero => rw [Int.pow_zero, Int.pow_zero]; rfl
  | succ e ih =>
    rw [Int.pow_succ, Int.pow_succ, ih]
    by_cases h : e % 2 = 1
    · rw [if_pos h, if_neg (by omega), Int.neg_mul_neg]
    · rw [if_neg h, if_pos (by omega), Int.mul_neg]

@[simp] theorem int_pow_eq (b : Int) (e : Nat) : intPow b e = b ^ e := by
  unfold intPow
  simp only [Nat.pow_eq, Int.natCast_pow]
  by_cases h : b < 0
  · have hb : b = -(b.natAbs : Int) := by omega
    rw [hb, neg_pow_eq, ← hb]
    simp [h]
  · have hb : (b.natAbs : Int) = b := by omega
    simp [h, hb]

/-- Bases of magnitude at most one and negative exponents are exempt from the limit, and
    what they come to is small. -/
theorem power_exempt {b e : Int} (h : b.natAbs ≤ 1 ∨ e < 0) :
    ∃ r : Except Fault Int, (∀ limits, power limits b e = r) ∧ ∀ v, r = .ok v → v.natAbs ≤ 1 := by
  by_cases hzero : b = 0
  · refine ⟨if e < 0 then .error .divisionByZero else if e = 0 then .ok 1 else .ok 0, ?_, ?_⟩
    · intro limits
      rw [power, if_pos hzero]
    · intro v hv
      repeat' split at hv
      all_goals cases hv
      all_goals decide
  by_cases hone : b.natAbs = 1
  · refine ⟨.ok (if b < 0 ∧ e % 2 = 1 then -1 else 1), ?_, ?_⟩
    · intro limits
      rw [power, if_neg hzero, if_pos hone]
    · intro v hv
      cases hv
      split <;> decide
  have hneg : e < 0 := by omega
  refine ⟨.ok 0, ?_, ?_⟩
  · intro limits
    rw [power, if_neg hzero, if_neg hone, if_pos hneg]
  · intro v hv
    cases hv
    decide

theorem power_checked (limits : Limits) {b e : Int} (hb : 1 < b.natAbs) (he : 0 ≤ e) :
    power limits b e =
      if UInt32.size ≤ e.toNat ∨ limits.maxPowerBits.toNat < powerBits b e.toNat then .error .arithmeticOverflow
      else .ok (b ^ e.toNat) := by
  have hzero : b ≠ 0 := by
    rintro rfl
    exact absurd hb (by decide)
  rw [power, if_neg hzero, if_neg (by omega), if_neg (by omega), int_pow_eq]

end Reckon
