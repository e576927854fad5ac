/-
  Reckon.Proofs.Session.Entering — all that entering one line can do.

  It binds one name, or it leaves the variables alone: because the line is blank, because
  it is an expression with a value, or because it is refused (`enter_cases`).
-/

import Reckon.Proofs.Line.Assignment
import Reckon.Proofs.Line.Reading
import Reckon.Proofs.Variables.Assignment

namespace Reckon

theorem of_string_blank_iff {line : String} : Line.ofString line = .ok .blank ↔ Text.trim line.toList = [] := by
  unfold Line.ofString
  simp only [List.isEmpty_iff]
  constructor
  · intro h
    by_cases hb : Text.trim line.toList = []
    · exact hb
    · rw [if_neg hb] at h
      split at h
      · obtain ⟨lhs, rhs, ha⟩ := assignment_of_read h
        cases ha
      · obtain ⟨ts, hts⟩ := expression_of_read h
        cases hts
  · intro hb
    rw [if_pos hb]

theorem enter_assignment {line lhs rhs : String} (hline : Line.ofString line = .ok (.assignment lhs rhs))
    {vars : Variables} {value : Int} (hrhs : vars.Denotes rhs value) (limits : Limits) :
    enter limits vars line = (.quiet, vars.insert lhs value) := by
  obtain ⟨-, -, -, -, -, hlhs, -⟩ := of_string_assignment_iff.mp hline
  have ha : vars.assign lhs rhs = .ok (vars.insert lhs value) := Variables.assign_eq_ok_iff.mpr ⟨value, hrhs, hlhs, rfl⟩
  simp only [enter, hline, ha]

/-- A line binds a name to what its right side stands for, or is blank, or has a value,
    or is refused. -/
theorem enter_cases (limits : Limits) (vars : Variables) (line : String) :
    (∃ lhs rhs value, Line.ofString line = .ok (.assignment lhs rhs) ∧ vars.Denotes rhs value ∧
        isVariableName lhs = true ∧ enter limits vars line = (.quiet, vars.insert lhs value)) ∨
      (Text.trim line.toList = [] ∧ enter limits vars line = (.quiet, vars)) ∨
      (∃ v, enter limits vars line = (.value v, vars)) ∨
      ∃ fault, enter limits vars line = (.refused fault, vars) := by
  cases hl : Line.ofString line with
  | error fault => exact Or.inr (Or.inr (Or.inr ⟨fault, by simp only [enter, hl]⟩))
  | ok l =>
    cases l with
    | blank => exact Or.inr (Or.inl ⟨of_string_blank_iff.mp hl, by simp only [enter, hl]⟩)
    | assignment lhs rhs =>
      cases ha : vars.assign lhs rhs with
      | error fault => exact Or.inr (Or.inr (Or.inr ⟨fault, by simp only [enter, hl, ha]⟩))
      | ok after =>
        obtain ⟨value, hrhs, hlhs, rfl⟩ := Variables.assign_eq_ok_iff.mp ha
        exact Or.inl ⟨lhs, rhs, value, rfl, hrhs, hlhs, by simp only [enter, hl, ha]⟩
    | expression tokens =>
      cases hc : computeTokens limits vars tokens with
      | error fault => exact Or.inr (Or.inr (Or.inr ⟨fault, by simp only [enter, hl, hc]⟩))
      | ok v => exact Or.inr (Or.inr (Or.inl ⟨v, by simp only [enter, hl, hc]⟩))

end Reckon
