/-
  Reckon.Text.Decimal.Lemmas — what is written is read back.

  `digits_eq_to_digits`: writing by halves comes out as division digit by digit would
  write the number. `signed_signed_digits`: the text of an integer denotes it.
-/

import Mathlib
import Reckon.Text.Decimal

namespace Reckon.Text.Decimal

/-! ## The halves are the digits -/

/-- The last `w` digits of `n`, leading zeros included. -/
def columns : Nat → Nat → List Char
  | 0, _ => []
  | w + 1, n => columns w (n / 10) ++ [(n % 10).digitChar]

theorem columns_add (a b n : Nat) :
    columns (a + b) n = columns a (n / 10 ^ b) ++ columns b (n % 10 ^ b) := by
  induction b generalizing n with
  | zero => simp [columns]
  | succ b ih =>
    rw [← Nat.add_assoc, columns, ih, columns, Nat.div_div_eq_div_mul, ← Nat.pow_succ',
      Nat.mod_mod_of_dvd n (Nat.dvd_of_pow_dvd (by omega) (Nat.dvd_refl (10 ^ (b + 1)))),
      Nat.pow_succ', Nat.mod_mul_right_div_self, List.append_assoc]

theorem padded_eq (k n : Nat) (tail : List Char) : padded k n tail = columns (2 ^ k) n ++ tail := by
  induction k generalizing n tail with
  | zero => simp [padded, columns]
  | succ k ih =>
    rw [padded, ih, ih, ← List.append_assoc, Nat.pow_eq, Nat.pow_eq, ← columns_add, Nat.pow_succ]
    congr 2
    omega

@[simp] theorem columns_zero (w : Nat) : columns w 0 = List.replicate w '0' := by
  induction w with
  | zero => rfl
  | succ w ih => rw [columns, Nat.zero_div, ih, List.replicate_succ']; rfl

/-- A number that fits is written as its digits behind zeros. -/
theorem columns_eq {w n : Nat} (h : n < 10 ^ w) (hn : 0 < n) :
    ∃ z, columns w n = List.replicate z '0' ++ Nat.toDigits 10 n := by
  induction w generalizing n with
  | zero => simp at h; omega
  | succ w ih =>
    rw [columns, Nat.toDigits_eq_if (by decide)]
    split
    · next hlt => exact ⟨w, by rw [Nat.div_eq_of_lt hlt, columns_zero, Nat.mod_eq_of_lt hlt]⟩
    · next hge =>
      obtain ⟨z, hz⟩ := ih (n := n / 10) (by rw [Nat.pow_succ] at h; omega) (by omega)
      exact ⟨z, by rw [hz, List.append_assoc]⟩

theorem lt_halvings (n : Nat) : n < 10 ^ 2 ^ halvings n := by
  have h1 : n < 2 ^ (n.log2 + 1) := Nat.lt_log2_self
  have h2 : n.log2 / 3 + 1 < 2 ^ halvings n := Nat.lt_log2_self
  calc n < 2 ^ (n.log2 + 1) := h1
    _ ≤ 2 ^ (3 * (n.log2 / 3 + 1)) := Nat.pow_le_pow_right (by decide) (by omega)
    _ = 8 ^ (n.log2 / 3 + 1) := by rw [Nat.pow_mul]
    _ ≤ 10 ^ (n.log2 / 3 + 1) := Nat.pow_le_pow_left (by decide) _
    _ ≤ 10 ^ 2 ^ halvings n := Nat.pow_le_pow_right (by decide) (by omega)

/-- The first digit of a positive number is not zero. -/
theorem to_digits_head {n : Nat} (hn : 0 < n) : (Nat.toDigits 10 n).head? ≠ some '0' := by
  induction n using Nat.strongRecOn with
  | _ n ih =>
    rw [Nat.toDigits_eq_if (by decide)]
    split
    · next hlt => simpa using Nat.pos_iff_ne_zero.mp hn
    · next hge =>
      have := ih (n / 10) (by omega) (by omega)
      cases ht : Nat.toDigits 10 (n / 10) with
      | nil => exact absurd ht Nat.toDigits_ne_nil
      | cons c cs => simpa [ht] using this

theorem digits_eq_to_digits (n : Nat) : digits n = Nat.toDigits 10 n := by
  rw [digits, padded_eq, List.append_nil]
  rcases Nat.eq_zero_or_pos n with rfl | hn
  · simp
  · obtain ⟨z, hz⟩ := columns_eq (lt_halvings n) hn
    have hd : (Nat.toDigits 10 n).dropWhile (· == '0') = Nat.toDigits 10 n := by
      have := to_digits_head hn
      cases ht : Nat.toDigits 10 n with
      | nil => rfl
      | cons c cs => rw [ht] at this; simp at this; simp [this]
    rw [hz, List.dropWhile_append_of_pos (by simp), hd]
    split
    · next h => exact absurd h Nat.toDigits_ne_nil
    · next h => exact h.symm

/-! ## What is written is read back -/

@[simp] theorem value_digits (n : Nat) : value (digits n) = n := by
  rw [digits_eq_to_digits, value, Nat.ofDigitChars_ten_toDigits]

@[simp] theorem is_natural_digits (n : Nat) : isNatural (digits n) = true := by
  rw [digits_eq_to_digits, isNatural, Bool.and_eq_true, List.all_eq_true]
  refine ⟨?_, fun c hc => Nat.isDigit_of_mem_toDigits (by decide) (by decide) hc⟩
  cases h : Nat.toDigits 10 n with
  | nil => exact absurd h Nat.toDigits_ne_nil
  | cons => rfl

@[simp] theorem natural_digits (n : Nat) : natural? (digits n) = some n := by
  rw [natural?, is_natural_digits, value_digits]; rfl

/-- Digits are read without a sign. -/
theorem signed_of_natural {cs : List Char} (h : isNatural cs = true) :
    signed? cs = some (value cs : Int) := by
  have hn : natural? cs = some (value cs) := by rw [natural?, h]; rfl
  unfold signed?
  split
  · simp [isNatural] at h
  · simp [isNatural] at h
  · rw [hn]; rfl

@[simp] theorem signed_signed_digits (v : Int) : signed? (signedDigits v) = some v := by
  cases v with
  | ofNat n => rw [signedDigits, signed_of_natural (is_natural_digits n), value_digits]; rfl
  | negSucc n => rw [signedDigits, signed?, natural_digits]; rfl

end Reckon.Text.Decimal
