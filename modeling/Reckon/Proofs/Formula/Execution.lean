/-
  Reckon.Proofs.Formula.Execution — running a part of a list of instructions.

  Code that leaves one value when it runs alone leaves it on top of whatever stack it
  starts from (`exec_all_value`), so in the midst of other code it counts as the
  instruction that pushes its value (`run_context`).
-/

import Reckon.Formula.Signs
import Reckon.Formula.Value
import Reckon.Proofs.Except

namespace Reckon.Formula

variable (limits : Limits)

/-- The stack after some instructions. -/
def execAll (code : List Instr) (stack : Stack Int) : Except Fault (Stack Int) :=
  code.foldlM (exec limits) stack

theorem exec_all_cons (i : Instr) (code : List Instr) (stack : Stack Int) :
    execAll limits (i :: code) stack = (exec limits stack i).bind (execAll limits code) := rfl

theorem exec_all_append (a b : List Instr) (stack : Stack Int) :
    execAll limits (a ++ b) stack = (execAll limits a stack).bind (execAll limits b) := by
  simp only [execAll, List.foldlM_append]
  rfl

theorem run_eq (code : List Instr) : run limits code = (execAll limits code Stack.empty).bind fun
    | [v] => .ok v
    | _ => .error .invalidExpression := rfl

theorem run_eq_ok_iff {code : List Instr} {v : Int} :
    run limits code = .ok v ↔ execAll limits code [] = .ok [v] := by
  rw [run_eq]
  show (execAll limits code []).bind _ = _ ↔ _
  cases execAll limits code [] with
  | error f => exact ⟨fun h => (by cases h), fun h => (by cases h)⟩
  | ok s =>
    rcases s with _ | ⟨w, _ | ⟨w', s⟩⟩
    · exact ⟨fun h => (by cases h), fun h => (by cases h)⟩
    · exact ⟨fun h => (by cases h; rfl), fun h => (by cases h; rfl)⟩
    · exact ⟨fun h => (by cases h), fun h => (by cases h)⟩

/-- What lies below the operands plays no part. -/
theorem exec_above {stack stack' : Stack Int} {i : Instr} (h : exec limits stack i = .ok stack')
    (below : Stack Int) : exec limits (stack ++ below) i = .ok (stack' ++ below) := by
  cases i with
  | push v => cases h; rfl
  | apply o =>
    rcases stack with _ | ⟨r, _ | ⟨l, s⟩⟩
    · cases h
    · cases h
    · simp only [exec, List.cons_append] at h ⊢
      cases ho : o.apply limits l r with
      | error f => rw [ho] at h; cases h
      | ok v => rw [ho] at h; cases h; rfl

theorem exec_all_above {code : List Instr} {stack stack' : Stack Int} (h : execAll limits code stack = .ok stack')
    (below : Stack Int) : execAll limits code (stack ++ below) = .ok (stack' ++ below) := by
  induction code generalizing stack with
  | nil => cases h; rfl
  | cons i code ih =>
    rw [exec_all_cons] at h ⊢
    obtain ⟨s, hi, hr⟩ := bind_eq_ok h
    rw [exec_above limits hi]
    exact ih hr

theorem exec_all_value {code : List Instr} {v : Int} (h : run limits code = .ok v) (stack : Stack Int) :
    execAll limits code stack = .ok (v :: stack) :=
  exec_all_above limits ((run_eq_ok_iff limits).mp h) stack

/-! ## The value of a formula -/

def value (symbols : List Symbol) : Except Fault Int := (toCode (settleSigns symbols)).bind (run limits)

theorem code_of_value {symbols : List Symbol} {v : Int} (h : value limits symbols = .ok v) :
    ∃ code, toCode (settleSigns symbols) = .ok code ∧ run limits code = .ok v :=
  bind_eq_ok h

/-! ## Code that does the same -/

/-- Two lists of instructions that do the same to every stack. -/
def SameEffect (a b : List Instr) : Prop := ∀ stack, execAll limits a stack = execAll limits b stack

variable {limits}

theorem SameEffect.refl (a : List Instr) : SameEffect limits a a := fun _ => rfl

theorem SameEffect.append {a b c d : List Instr} (h : SameEffect limits a b) (h' : SameEffect limits c d) :
    SameEffect limits (a ++ c) (b ++ d) := by
  intro stack
  rw [exec_all_append, exec_all_append, h stack]
  cases execAll limits b stack with
  | error f => rfl
  | ok s => exact h' s

theorem SameEffect.run {a b : List Instr} (h : SameEffect limits a b) : run limits a = run limits b := by
  rw [run_eq, run_eq, h]

theorem same_effect_push {code : List Instr} {v : Int} (h : Formula.run limits code = .ok v) :
    SameEffect limits code [.push v] :=
  exec_all_value limits h

/-- Code with a value counts as the instruction that pushes the value. -/
theorem run_context {code : List Instr} {v : Int} (h : Formula.run limits code = .ok v) (before after : List Instr) :
    Formula.run limits (before ++ code ++ after) = Formula.run limits (before ++ [.push v] ++ after) :=
  (((SameEffect.refl before).append (same_effect_push h)).append (.refl after)).run

end Reckon.Formula
