/-
  Reckon.Proofs.Formula.Runs — what a run of signs amounts to.

  A run is meant to be a minus if it has an odd number of minuses (`parity`), and is taken
  for one by a count of 32 bits (`counted`). From `2 ^ 31` minuses on the count is below
  zero for as many again, and an odd count below zero is not told from an even one. So the
  two agree exactly if the minuses are even in number or leave the count at zero or above
  (`counted_eq_parity_iff`); that they are fewer than `2 ^ 31` is enough.

  In a formula it is whole runs that are counted, those with no sign on either side
  (`IsRun`).
-/

import Mathlib.Algebra.Group.Nat.Defs
import Mathlib.Data.List.Basic
import Reckon.Formula.Signs

namespace Reckon.Formula

/-! ## The count -/

@[simp] theorem minus_add : minus .add = 0 := rfl
@[simp] theorem minus_sub : minus .sub = 1 := rfl

@[simp] theorem sign_of_is_sign (minuses : Int32) : (signOf minuses).isSign = true := by
  unfold signOf
  split <;> rfl

theorem sign_of_minus {o : Operator} (h : o.isSign = true) : signOf (minus o) = o := by
  cases o with
  | add | sub => rfl
  | mul | div | pow => cases h

/-- Below zero no count makes a minus. -/
theorem sign_of_eq (minuses : Int32) :
    signOf minuses = if 0 ≤ minuses.toInt ∧ minuses.toInt % 2 = 1 then .sub else .add := by
  have hodd : minuses % 2 = 1 ↔ 0 ≤ minuses.toInt ∧ minuses.toInt % 2 = 1 := by
    rw [← Int32.toInt_inj, Int32.toInt_mod]
    show minuses.toInt.tmod 2 = 1 ↔ _
    rw [Int.tmod_eq_emod]
    split <;> omega
  simp only [signOf, hodd]

/-- The parity of as many minuses can be told from their count. -/
def KeepsParity (minuses : Nat) : Prop := minuses % 2 = 1 → minuses % 2 ^ 32 < 2 ^ 31

instance (minuses : Nat) : Decidable (KeepsParity minuses) := inferInstanceAs (Decidable (_ → _))

theorem keeps_parity_of_lt {n : Nat} (h : n < 2 ^ 31) : KeepsParity n := fun _ => by omega

/-- No higher bound would do. -/
example : ¬KeepsParity (2 ^ 31 + 1) := by decide

theorem sign_of_count (n : Nat) : signOf (.ofNat n) = if n % 2 = 1 ∧ KeepsParity n then .sub else .add := by
  have hcount : 0 ≤ (Int32.ofNat n).toInt ∧ (Int32.ofNat n).toInt % 2 = 1 ↔ n % 2 = 1 ∧ KeepsParity n := by
    rw [Int32.toInt_ofNat', Int.bmod_def, KeepsParity]
    simp only [Int32.size]
    split <;> omega
  simp only [sign_of_eq, hcount]

/-! ## Runs -/

/-- One or more signs. -/
def SignRun (run : List Operator) : Prop := run ≠ [] ∧ ∀ o ∈ run, o.isSign = true

/-- The count after a run. -/
def minuses (run : List Operator) : Int32 := .ofNat (run.count .sub)

/-- The sign that a run amounts to: a minus if an odd number of its signs are. -/
def parity (run : List Operator) : Operator := if run.count .sub % 2 = 1 then .sub else .add

/-- The sign that a run is taken for: a plus if its minuses are too many to tell their parity. -/
def counted (run : List Operator) : Operator :=
  if KeepsParity (run.count .sub) then parity run else .add

theorem counted_eq_parity_iff (run : List Operator) : counted run = parity run ↔ KeepsParity (run.count .sub) := by
  unfold counted
  split
  · next h => exact iff_of_true rfl h
  · next h =>
    have hodd : run.count .sub % 2 = 1 := (Classical.not_imp.mp h).1
    simp [parity, hodd, h]

theorem sign_of_minuses (run : List Operator) : signOf (minuses run) = counted run := by
  rw [minuses, sign_of_count, counted, parity]
  by_cases h : KeepsParity (run.count .sub) <;> simp [h]

@[simp] theorem minuses_nil : minuses [] = 0 := rfl

@[simp] theorem minuses_cons (o : Operator) (run : List Operator) : minuses (o :: run) = minus o + minuses run := by
  rw [minuses, minuses, List.count_cons, Nat.add_comm, Int32.ofNat_add]
  cases o <;> rfl

/-! ## Runs in a formula -/

/-- A symbol that is no sign: it ends the run of signs before it. -/
def Symbol.endsRun : Symbol → Bool
  | .op o => !o.isSign
  | _ => true

theorem ends_run_op {o : Operator} : (Symbol.op o).endsRun = true ↔ ¬o.isSign = true := by
  simp [Symbol.endsRun]

theorem sign_of_not_ends {x : Symbol} (h : ¬x.endsRun = true) : ∃ o, x = .op o ∧ o.isSign = true := by
  cases x with
  | op o => exact ⟨o, rfl, Decidable.not_not.mp fun ho => h (ends_run_op.mpr ho)⟩
  | num | opening | closing => exact absurd rfl h

/-- A run of signs stands in a formula, with no sign before and none after it. -/
def IsRun (run : List Operator) (l : List Symbol) : Prop :=
  SignRun run ∧ ∃ a b, l = a ++ run.map .op ++ b ∧ (∀ x ∈ a.getLast?, x.endsRun = true) ∧
    ∀ x ∈ b.head?, x.endsRun = true

namespace IsRun

variable {run : List Operator} {u l v : List Symbol}

/-- A run stays whole behind what ends a run, and in a formula that starts with such a symbol. -/
theorem append_left (h : IsRun run l)
    (hu : (∀ x ∈ u.getLast?, x.endsRun = true) ∨ ∀ x ∈ l.head?, x.endsRun = true) : IsRun run (u ++ l) := by
  obtain ⟨hrun, a, b, rfl, ha, hb⟩ := h
  refine ⟨hrun, u ++ a, b, by simp only [List.append_assoc], ?_, hb⟩
  cases a with
  | cons x a => rwa [List.getLast?_append_of_ne_nil _ (List.cons_ne_nil x a)]
  | nil =>
    rw [List.append_nil]
    rcases hu with hu | hl
    · exact hu
    · obtain ⟨o, run, rfl⟩ := List.exists_cons_of_ne_nil hrun.1
      exact absurd (hrun.2 o List.mem_cons_self) (ends_run_op.mp (hl (.op o) rfl))

theorem append_right (h : IsRun run l) (hv : ∀ x ∈ v.head?, x.endsRun = true) : IsRun run (l ++ v) := by
  obtain ⟨hrun, a, b, rfl, ha, hb⟩ := h
  refine ⟨hrun, a, b ++ v, by simp only [List.append_assoc], ha, ?_⟩
  cases b with
  | nil => exact hv
  | cons x b => exact hb

end IsRun

/-- A formula that is not too long has no run that is too long. -/
theorem keeps_parity_of_length {l : List Symbol} (hl : l.length < 2 ^ 31) {run : List Operator} (h : IsRun run l) :
    KeepsParity (run.count .sub) := by
  obtain ⟨-, a, b, rfl, -, -⟩ := h
  have hcount : run.count .sub ≤ run.length := List.count_le_length
  simp only [List.length_append, List.length_map] at hl
  exact keeps_parity_of_lt (by omega)

end Reckon.Formula
