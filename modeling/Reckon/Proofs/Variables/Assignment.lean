/-
  Reckon.Proofs.Variables.Assignment — what an assignment binds, and when it is refused.

  The right side stands for an integer that it spells or for the value of a name that it
  is (`Denotes`, `denotes_iff`); never both, as no name spells an integer
  (`Denotes.unique`). An assignment that goes well has such a right side and a name on the
  left, and binds the one to the other (`assign_eq_ok_iff`).
-/

import Reckon.Proofs.Text.Literal
import Reckon.Proofs.Text.Names
import Reckon.Variables.Assignment
import Reckon.Variables.Lemmas

namespace Reckon

open Text (Letters)
open Text.Decimal (Literal)

theorem is_variable_name_iff {name : String} : isVariableName name = true ↔ Letters name.toList := Text.is_name_iff

/-- A name spells no integer. -/
theorem signed_of_name {cs : List Char} (h : Text.isName cs = true) : Text.Decimal.signed? cs = none := by
  cases cs with
  | nil => cases h
  | cons c cs =>
    simp only [Text.isName, List.isEmpty_cons, Bool.not_false, Bool.true_and, List.all_cons, Bool.and_eq_true] at h
    have hd : c.isDigit = false := Text.digit_of_letter h.1
    have hn : Text.Decimal.natural? (c :: cs) = none := by simp [Text.Decimal.natural?, Text.Decimal.isNatural, hd]
    unfold Text.Decimal.signed?
    split
    · rename_i he
      cases he
      exact absurd h.1 (by decide)
    · rename_i he
      cases he
      exact absurd h.1 (by decide)
    · rw [hn]
      rfl

namespace Variables

/-- The right side of an assignment stands for a value. -/
inductive Denotes (vars : Variables) (rhs : String) : Int → Prop
  | integer {value : Int} : Text.Decimal.signed? rhs.toList = some value → Denotes vars rhs value
  | copy {value : Int} : isVariableName rhs = true → vars.get? rhs = some value → Denotes vars rhs value

theorem Denotes.unique {vars : Variables} {rhs : String} {v w : Int} (hv : vars.Denotes rhs v)
    (hw : vars.Denotes rhs w) : v = w := by
  cases hv with
  | integer hv =>
    cases hw with
    | integer hw => exact Option.some.inj (hv.symm.trans hw)
    | copy hn _ =>
      rw [signed_of_name hn] at hv
      cases hv
  | copy hn hv =>
    cases hw with
    | integer hw =>
      rw [signed_of_name hn] at hw
      cases hw
    | copy _ hw => exact Option.some.inj (hv.symm.trans hw)

theorem denotes_iff {vars : Variables} {rhs : String} {v : Int} :
    vars.Denotes rhs v ↔ Literal rhs.toList v ∨ Letters rhs.toList ∧ vars.get? rhs = some v := by
  rw [← Text.Decimal.signed_eq_some_iff, ← is_variable_name_iff]
  constructor
  · intro h
    cases h with
    | integer hs => exact Or.inl hs
    | copy hn hg => exact Or.inr ⟨hn, hg⟩
  · rintro (hs | ⟨hn, hg⟩)
    · exact .integer hs
    · exact .copy hn hg

theorem source_eq_ok_iff {vars : Variables} {rhs : String} {value : Int} :
    vars.source rhs = .ok value ↔ vars.Denotes rhs value := by
  unfold source
  constructor
  · intro h
    by_cases hn : isVariableName rhs = true
    · rw [if_pos hn] at h
      cases hg : vars.get? rhs with
      | none => rw [hg] at h; cases h
      | some v => rw [hg] at h; cases h; exact .copy hn hg
    · rw [if_neg hn] at h
      cases hs : Text.Decimal.signed? rhs.toList with
      | none => rw [hs] at h; cases h
      | some v => rw [hs] at h; cases h; exact .integer hs
  · intro h
    cases h with
    | integer hs =>
      have hn : ¬isVariableName rhs = true := by
        intro hn
        rw [signed_of_name hn] at hs
        cases hs
      rw [if_neg hn, hs]
    | copy hn hg => rw [if_pos hn, hg]

theorem source_unbound {vars : Variables} {rhs : String} (h : Letters rhs.toList) (hv : vars.get? rhs = none) :
    vars.source rhs = .error .unknownVariable := by
  rw [source, if_pos (is_variable_name_iff.mpr h), hv]

theorem assign_of_name {lhs : String} (h : isVariableName lhs = true) (vars : Variables) (rhs : String) :
    vars.assign lhs rhs = (vars.source rhs).map (vars.insert lhs) := by
  unfold assign
  cases vars.source rhs with
  | error fault => rfl
  | ok value => simp only [set, if_pos h, Except.map]

theorem assign_eq_ok_iff {vars after : Variables} {lhs rhs : String} : vars.assign lhs rhs = .ok after ↔
    ∃ value, vars.Denotes rhs value ∧ isVariableName lhs = true ∧ after = vars.insert lhs value := by
  unfold assign
  constructor
  · intro h
    cases hs : vars.source rhs with
    | error fault => rw [hs] at h; cases h
    | ok value =>
      simp only [hs] at h
      cases hset : vars.set lhs value with
      | error e => rw [hset] at h; cases h
      | ok vars' =>
        rw [hset] at h
        cases h
        exact ⟨value, source_eq_ok_iff.mp hs, set_eq_ok_iff.mp hset⟩
  · rintro ⟨value, hs, hset⟩
    simp only [source_eq_ok_iff.mpr hs, set_eq_ok_iff.mpr hset]

end Variables

end Reckon
