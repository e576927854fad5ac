/-
  Reckon.Proofs.Formula.Surplus — operands counted against operators.

  A number counts one and an operator minus one, in a formula, in code and among what
  waits to be released. The count of a formula is that of its code (`surplus_to_code`),
  and the count of code is what a run of it adds to the stack (`length_exec_all`), so a
  formula with a value has one number more than it has operators (`surplus_of_value`).
-/

import Reckon.Proofs.Formula.Conversion
import Reckon.Proofs.Formula.Execution

namespace Reckon.Formula

/-! ## The counts -/

def Symbol.weight : Symbol → Int
  | .num _ => 1
  | .op _ => -1
  | .opening | .closing => 0

def Instr.weight : Instr → Int
  | .push _ => 1
  | .apply _ => -1

def Waiting.weight : Waiting → Int
  | .op _ => -1
  | .opening => 0

/-- The numbers of a formula less its operators. -/
def surplus : List Symbol → Int
  | [] => 0
  | x :: l => x.weight + surplus l

@[simp] theorem surplus_append (a b : List Symbol) : surplus (a ++ b) = surplus a + surplus b := by
  induction a with
  | nil => simp [surplus]
  | cons x a ih =>
    simp only [List.cons_append, surplus, ih]
    omega

/-- The values that code adds to a stack. -/
def gain : List Instr → Int
  | [] => 0
  | i :: code => i.weight + gain code

@[simp] theorem gain_append (a b : List Instr) : gain (a ++ b) = gain a + gain b := by
  induction a with
  | nil => simp [gain]
  | cons i a ih =>
    simp only [List.cons_append, gain, ih]
    omega

@[simp] theorem gain_reverse (code : List Instr) : gain code.reverse = gain code := by
  induction code with
  | nil => rfl
  | cons i code ih =>
    simp only [List.reverse_cons, gain_append, gain, ih]
    omega

/-- What is still to be added by the operators that wait. -/
def due : Stack Waiting → Int
  | [] => 0
  | x :: w => x.weight + due w

/-! ## Converting -/

namespace Conversion

/-- The count of the code made so far and of what is still to be released. -/
def total (c : Conversion) : Int := gain c.code + due c.waiting

theorem total_op (code : List Instr) (o : Operator) (w : Stack Waiting) :
    total ⟨code, .op o :: w⟩ = total ⟨.apply o :: code, w⟩ := by
  simp only [total, gain, due, Waiting.weight, Instr.weight]
  omega

theorem total_release (level : Nat) (code : List Instr) (w : Stack Waiting) :
    (release level code w).total = total ⟨code, w⟩ := by
  induction w generalizing code with
  | nil => rfl
  | cons x w ih =>
    cases x with
    | opening => rfl
    | op o =>
      simp only [release]
      split
      · rfl
      · rw [ih, total_op]

theorem total_leave {code : List Instr} {w : Stack Waiting} {c : Conversion} (h : leave code w = .ok c) :
    c.total = total ⟨code, w⟩ := by
  induction w generalizing code with
  | nil => cases h
  | cons x w ih =>
    cases x with
    | opening =>
      cases h
      simp [total, due, Waiting.weight]
    | op o => rw [ih h, total_op]

theorem total_step {c c' : Conversion} {x : Symbol} (h : c.step x = .ok c') : c'.total = c.total + x.weight := by
  cases x with
  | num v =>
    cases h
    simp only [total, gain, Instr.weight, Symbol.weight]
    omega
  | op o =>
    cases h
    have hr := total_release o.precedence c.code c.waiting
    simp only [total, Stack.push, due, Waiting.weight, Symbol.weight] at hr ⊢
    omega
  | opening =>
    cases h
    simp [total, Stack.push, due, Waiting.weight, Symbol.weight]
  | closing =>
    have hl : c'.total = c.total := total_leave h
    simpa [Symbol.weight] using hl

theorem total_read {c c' : Conversion} {l : List Symbol} (h : c.read l = .ok c') :
    c'.total = c.total + surplus l := by
  induction l generalizing c with
  | nil => cases h; simp [surplus]
  | cons x l ih =>
    rw [read_cons] at h
    obtain ⟨d, hx, hr⟩ := bind_eq_ok h
    have hstep := total_step hx
    have hrest := ih hr
    simp only [surplus]
    omega

theorem gain_finish {code : List Instr} {w : Stack Waiting} {cs : List Instr} (h : finish code w = .ok cs) :
    gain cs = total ⟨code, w⟩ := by
  induction w generalizing code with
  | nil =>
    cases h
    simp [total, due]
  | cons x w ih =>
    cases x with
    | opening => cases h
    | op o => rw [ih h, total_op]

end Conversion

theorem surplus_to_code {l : List Symbol} {code : List Instr} (h : toCode l = .ok code) : gain code = surplus l := by
  rw [Conversion.to_code_eq] at h
  obtain ⟨c, hc, hf⟩ := bind_eq_ok h
  have hr := Conversion.total_read hc
  have hf : gain code = c.total := Conversion.gain_finish hf
  have hs : Conversion.start.total = 0 := rfl
  omega

/-! ## Running -/

variable {limits : Limits}

theorem length_exec {stack stack' : Stack Int} {i : Instr} (h : exec limits stack i = .ok stack') :
    (stack'.length : Int) = stack.length + i.weight := by
  cases i with
  | push v => cases h; simp [Instr.weight, Stack.push]
  | apply o =>
    rcases stack with _ | ⟨r, _ | ⟨l, s⟩⟩
    · cases h
    · cases h
    · simp only [exec] at h
      cases ho : o.apply limits l r with
      | error f => rw [ho] at h; cases h
      | ok v =>
        rw [ho] at h
        cases h
        simp only [Stack.push, Instr.weight, List.length_cons]
        omega

theorem length_exec_all {code : List Instr} {stack stack' : Stack Int} (h : execAll limits code stack = .ok stack') :
    (stack'.length : Int) = stack.length + gain code := by
  induction code generalizing stack with
  | nil => cases h; simp [gain]
  | cons i code ih =>
    rw [exec_all_cons] at h
    obtain ⟨s, hi, hr⟩ := bind_eq_ok h
    have hstep := length_exec hi
    have hrest := ih hr
    simp only [gain]
    omega

/-- A formula with a value has one number more than it has operators, once its signs are
    settled. -/
theorem surplus_of_value {l : List Symbol} {v : Int} (h : value limits l = .ok v) : surplus (settleSigns l) = 1 := by
  obtain ⟨code, hc, hr⟩ := code_of_value limits h
  have hl := length_exec_all ((run_eq_ok_iff limits).mp hr)
  have hs := surplus_to_code hc
  simp only [List.length_singleton, List.length_nil] at hl
  omega

end Reckon.Formula
