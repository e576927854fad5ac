/-
  Reckon.Proofs.Formula.Magnitude — how large the values of a run can get.

  Every value on the stack is charged to the numbers of the code that it was made from:
  with `unit` bits for each of them it has room (`Charged`). A number is charged to
  itself, a result to the numbers of both operands, and nothing is charged twice, so no
  value is longer than all numbers of the code allow (`run_bit_length`). This holds of
  code of any shape and also of runs that go wrong later.
-/

import Reckon.Proofs.Arithmetic.BitLength
import Reckon.Proofs.Formula.Execution

namespace Reckon.Formula

/-! ## The numbers of the code -/

def operands : List Instr → List Int
  | [] => []
  | .push v :: code => v :: operands code
  | .apply _ :: code => operands code

/-- The greatest length among some integers. -/
def widest (vs : List Int) : Nat := (vs.map bitLength).foldr max 0

@[simp] theorem operands_append (a b : List Instr) : operands (a ++ b) = operands a ++ operands b := by
  induction a with
  | nil => rfl
  | cons i a ih =>
    cases i with
    | push v => exact congrArg (v :: ·) ih
    | apply o => exact ih

theorem bit_length_le_widest {vs : List Int} {v : Int} (h : v ∈ vs) : bitLength v ≤ widest vs := by
  induction vs with
  | nil => cases h
  | cons w vs ih =>
    rcases List.mem_cons.mp h with rfl | h
    · exact Nat.le_max_left _ _
    · exact Nat.le_trans (ih h) (Nat.le_max_right _ _)

/-! ## Charging values to numbers -/

/-- Each value of a stack has a share of the numbers, at least one of them, and fits into
    `unit` bits for each; the shares make up the total. -/
inductive Charged (unit : Nat) : Stack Int → Nat → Prop
  | nil : Charged unit [] 0
  | cons {v : Int} {stack : Stack Int} {share total : Nat} : 1 ≤ share → bitLength v ≤ share * unit →
      Charged unit stack total → Charged unit (v :: stack) (share + total)

theorem Charged.bit_length_le {unit total : Nat} {stack : Stack Int} (h : Charged unit stack total) {v : Int}
    (hv : v ∈ stack) : bitLength v ≤ total * unit := by
  induction h with
  | nil => cases hv
  | cons hshare hw hstack ih =>
    rw [Nat.add_mul]
    rcases List.mem_cons.mp hv with rfl | hv
    · exact Nat.le_trans hw (Nat.le_add_right _ _)
    · exact Nat.le_trans (ih hv) (Nat.le_add_left _ _)

variable {limits : Limits} {unit : Nat}

theorem exec_charged (hlimit : limits.maxPowerBits.toNat < UInt64.size - 1)
    (hunit : max 1 limits.maxPowerBits.toNat ≤ unit) {i : Instr} (hi : ∀ v ∈ operands [i], bitLength v ≤ unit)
    {stack stack' : Stack Int} {total : Nat} (hc : Charged unit stack total)
    (h : exec limits stack i = .ok stack') : Charged unit stack' (total + (operands [i]).length) := by
  cases i with
  | push v =>
    cases h
    have hv : bitLength v ≤ 1 * unit := by
      rw [Nat.one_mul]
      exact hi v List.mem_cons_self
    rw [Nat.add_comm]
    exact .cons (Nat.le_refl 1) hv hc
  | apply o =>
    cases hc with
    | nil => cases h
    | @cons r _ rshare _ hr1 hr hc =>
      cases hc with
      | nil => cases h
      | @cons l below lshare rest hl1 hl hc =>
        simp only [exec] at h
        cases ho : o.apply limits l r with
        | error fault => rw [ho] at h; cases h
        | ok v =>
          rw [ho] at h
          cases h
          -- the result takes over the shares of both operands
          have hx : unit ≤ lshare * unit := Nat.le_mul_of_pos_left unit hl1
          have hy : unit ≤ rshare * unit := Nat.le_mul_of_pos_left unit hr1
          have hv : bitLength v ≤ (lshare + rshare) * unit := by
            rw [Nat.add_mul]
            exact bit_length_apply_le hlimit ho hl hr (by omega) (by omega)
          have htotal : rshare + (lshare + rest) + (operands [.apply o]).length = lshare + rshare + rest := by
            simp only [operands, List.length_nil]
            omega
          rw [htotal]
          exact .cons (by omega) hv hc

theorem exec_all_charged (hlimit : limits.maxPowerBits.toNat < UInt64.size - 1)
    (hunit : max 1 limits.maxPowerBits.toNat ≤ unit) {code : List Instr}
    (hcode : ∀ v ∈ operands code, bitLength v ≤ unit) {stack stack' : Stack Int} {total : Nat}
    (hc : Charged unit stack total) (h : execAll limits code stack = .ok stack') :
    Charged unit stack' (total + (operands code).length) := by
  induction code generalizing stack total with
  | nil =>
    cases h
    exact hc
  | cons i code ih =>
    rw [exec_all_cons] at h
    obtain ⟨s, hi, hr⟩ := bind_eq_ok h
    have hsplit : operands (i :: code) = operands [i] ++ operands code := operands_append [i] code
    rw [hsplit] at hcode ⊢
    have hs := exec_charged hlimit hunit (fun v hv => hcode v (List.mem_append_left _ hv)) hc hi
    rw [List.length_append, ← Nat.add_assoc]
    exact ih (fun v hv => hcode v (List.mem_append_right _ hv)) hs hr

/-! ## The bound -/

/-- A value lies on the stack at some time while the code runs. -/
def Arises (limits : Limits) (code : List Instr) (v : Int) : Prop :=
  ∃ before after stack, code = before ++ after ∧ execAll limits before Stack.empty = .ok stack ∧ v ∈ stack

theorem arises_of_run {code : List Instr} {v : Int} (h : run limits code = .ok v) : Arises limits code v :=
  ⟨code, [], [v], (List.append_nil code).symm, (run_eq_ok_iff limits).mp h, List.mem_singleton.mpr rfl⟩

theorem bit_length_of_arises (hlimit : limits.maxPowerBits.toNat < UInt64.size - 1) {code : List Instr} {v : Int}
    (h : Arises limits code v) : bitLength v ≤
      (operands code).length * max 1 (max limits.maxPowerBits.toNat (widest (operands code))) := by
  obtain ⟨before, after, stack, rfl, hrun, hv⟩ := h
  rw [operands_append, List.length_append]
  -- the part that ran has no more numbers and no longer ones than the whole code
  have hwide : ∀ w ∈ operands before, bitLength w ≤
      max 1 (max limits.maxPowerBits.toNat (widest (operands before ++ operands after))) := by
    intro w hw
    have := bit_length_le_widest (List.mem_append_left (operands after) hw)
    omega
  have hc := exec_all_charged hlimit (by omega) hwide .nil hrun
  rw [Nat.zero_add] at hc
  exact Nat.le_trans (hc.bit_length_le hv) (Nat.mul_le_mul_right _ (Nat.le_add_right _ _))

/-- No value of a run, the last one or one on the way, is longer than the numbers of the
    code allow, at the length of the longest of them or of the limit on powers for each. -/
theorem run_bit_length (hlimit : limits.maxPowerBits.toNat < UInt64.size - 1) (code : List Instr) :
    (∀ v, run limits code = .ok v → bitLength v ≤
        (operands code).length * max 1 (max limits.maxPowerBits.toNat (widest (operands code)))) ∧
      ∀ v, Arises limits code v → bitLength v ≤
        (operands code).length * max 1 (max limits.maxPowerBits.toNat (widest (operands code))) :=
  ⟨fun _ h => bit_length_of_arises hlimit (arises_of_run h), fun _ h => bit_length_of_arises hlimit h⟩

/-- A power within 64 bits, and a value on the way to an underflow. -/
theorem run_bit_length_power :
    run ⟨64⟩ [.push 3, .push 20, .apply .pow, .push 5, .apply .mul] = .ok 17433922005 ∧
      bitLength 17433922005 ≤ 3 * max 1 (max 64 5) ∧
      Arises ⟨64⟩ [.push 3, .push 20, .apply .pow, .apply .mul] 3486784401 ∧
      bitLength 3486784401 ≤ 2 * max 1 (max 64 5) := by
  have hlimit : (⟨64⟩ : Limits).maxPowerBits.toNat < UInt64.size - 1 := by decide
  have hrun : run ⟨64⟩ [.push 3, .push 20, .apply .pow, .push 5, .apply .mul] = .ok 17433922005 :=
    eq_ok_of_to_option (by decide +kernel)
  have hrises : Arises ⟨64⟩ [.push 3, .push 20, .apply .pow, .apply .mul] 3486784401 :=
    ⟨[.push 3, .push 20, .apply .pow], [.apply .mul], [3486784401], rfl, eq_ok_of_to_option (by decide +kernel),
      by simp⟩
  exact ⟨hrun, (run_bit_length hlimit _).1 _ hrun, hrises, (run_bit_length hlimit _).2 _ hrises⟩

end Reckon.Formula
