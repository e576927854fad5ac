/-
  Reckon.Proofs.Session.Assigning — which lines are assignments, and what they do.

  The assignments are the lines made of a name, an `=`, and a name or an integer, with any
  blanks before, between and after these (`of_string_assigning_iff`). A line with an `=`
  that has not this form is refused: as an invalid identifier if one `=` is in it and
  letters and digits are mixed in one word before it (`of_string_misnamed`), as an invalid
  assignment otherwise (`of_string_unassigning`).

  An assignment binds its name to what the right side stands for, and is refused only if
  that is a name which is not bound. So nothing that is read as an assignment is refused
  for its form when it is carried out (`enter_equals`).
-/

import Reckon.Proofs.Session.Entering

namespace Reckon

open Text (trim Letters)
open Text.Decimal (Literal)

/-! ## Forms of lines -/

def Blanks (cs : List Char) : Prop := ∀ c ∈ cs, Text.isBlank c = true

/-- The line is a name, an `=`, and a name or an integer, with blanks around these. -/
structure Assigning (line lhs rhs : String) : Prop where
  name : Letters lhs.toList
  side : Letters rhs.toList ∨ ∃ v, Literal rhs.toList v
  text : ∃ w₁ w₂ w₃ w₄, Blanks w₁ ∧ Blanks w₂ ∧ Blanks w₃ ∧ Blanks w₄ ∧
    line.toList = w₁ ++ lhs.toList ++ w₂ ++ '=' :: (w₃ ++ rhs.toList ++ w₄)

/-- Letters and digits, with at least one of each. -/
structure Mixed (cs : List Char) : Prop where
  word : ∀ c ∈ cs, c.isAlpha = true ∨ c.isDigit = true
  letter : ∃ c ∈ cs, c.isAlpha = true
  digit : ∃ c ∈ cs, c.isDigit = true

/-- There is one `=` in the line, and letters are mixed with digits before it. -/
def Misnamed (line : String) : Prop :=
  ∃ a b, line.toList = a ++ '=' :: b ∧ '=' ∉ a ∧ '=' ∉ b ∧ Mixed (trim a)

theorem is_mixed_name_iff {cs : List Char} : Text.isMixedName cs = true ↔ Mixed cs := by
  simp only [Text.isMixedName, Bool.and_eq_true, List.all_eq_true, List.any_eq_true, Char.isAlphanum, Bool.or_eq_true]
  constructor
  · intro h
    exact ⟨h.1.1, h.1.2, h.2⟩
  · intro h
    exact ⟨⟨h.word, h.letter⟩, h.digit⟩

/-! ## Reading the line -/

variable {line lhs rhs : String}

theorem Assigning.trimmed (h : Assigning line lhs rhs) : Text.Trimmed rhs.toList := by
  rcases h.side with hr | ⟨v, hr⟩
  · exact Text.trimmed_letters hr
  · exact hr.trimmed

theorem of_string_assigning_iff : Line.ofString line = .ok (.assignment lhs rhs) ↔ Assigning line lhs rhs := by
  rw [of_string_assignment_iff, is_variable_name_iff, is_variable_name_iff, Text.Decimal.is_signed_iff]
  constructor
  · rintro ⟨a, b, hline, hl, hr, hname, hside⟩
    obtain ⟨w₁, w₂, ha, h₁, h₂⟩ := Text.trim_splits a
    obtain ⟨w₃, w₄, hb, h₃, h₄⟩ := Text.trim_splits b
    rw [hl] at ha
    rw [hr] at hb
    exact ⟨hname, hside, w₁, w₂, w₃, w₄, h₁, h₂, h₃, h₄, by rw [hline, ← ha, ← hb]⟩
  · intro h
    obtain ⟨w₁, w₂, w₃, w₄, h₁, h₂, h₃, h₄, hline⟩ := h.text
    exact ⟨_, _, hline, Text.trim_around h₁ h₂ (Text.trimmed_letters h.name), Text.trim_around h₃ h₄ h.trimmed,
      h.name, h.side⟩

theorem of_string_misnamed (h : Misnamed line) : Line.ofString line = .error .invalidIdentifier := by
  obtain ⟨a, b, hline, ha, hb, hmixed⟩ := h
  have hright : '=' ∉ trim b := fun hm => hb (Text.mem_of_mem_trim hm)
  rw [of_string_sides hline ha, Line.ofSides, if_neg hright, if_pos (is_mixed_name_iff.mpr hmixed)]

theorem of_string_unassigning (hm : '=' ∈ line.toList) (ha : ∀ lhs rhs, ¬Assigning line lhs rhs)
    (hn : ¬Misnamed line) : Line.ofString line = .error .invalidAssignment := by
  obtain ⟨a, b, hline, hleft⟩ := List.eq_append_cons_of_mem hm
  have hsides := of_string_sides hline hleft
  cases hl : Line.ofSides (trim a) (trim b) with
  | ok l =>
    obtain ⟨-, -, rfl⟩ := of_sides_eq_ok_iff.mp hl
    exact absurd (of_string_assigning_iff.mp (hsides.trans hl)) (ha _ _)
  | error fault =>
    rw [hsides, hl]
    unfold Line.ofSides at hl
    split at hl
    · exact hl.symm
    · rename_i hright
      split at hl
      · rename_i hmixed
        rw [Text.mem_trim_iff (by decide)] at hright
        exact absurd ⟨a, b, hline, hleft, hright, is_mixed_name_iff.mp hmixed⟩ hn
      · split at hl
        · cases hl
        · exact hl.symm

/-! ## Entering it -/

variable {limits : Limits} {vars : Variables}

theorem enter_unbound (h : Assigning line lhs rhs) (hr : Letters rhs.toList) (hv : vars.get? rhs = none) :
    enter limits vars line = (.refused .unknownVariable, vars) := by
  simp only [enter, of_string_assigning_iff.mpr h, Variables.assign_of_name (is_variable_name_iff.mpr h.name),
    Variables.source_unbound hr hv, Except.map]

theorem enter_assigning (h : Assigning line lhs rhs) {v : Int}
    (hv : Literal rhs.toList v ∨ Letters rhs.toList ∧ vars.get? rhs = some v) :
    enter limits vars line = (.quiet, vars.insert lhs v) :=
  enter_assignment (of_string_assigning_iff.mpr h) (Variables.denotes_iff.mpr hv) limits

/-- The right side of an assignment stands for a value, or is a name that is not bound. -/
theorem Assigning.side_cases (h : Assigning line lhs rhs) (vars : Variables) :
    (∃ v, Literal rhs.toList v ∨ Letters rhs.toList ∧ vars.get? rhs = some v) ∨
      Letters rhs.toList ∧ vars.get? rhs = none := by
  rcases h.side with hr | ⟨v, hv⟩
  · cases hg : vars.get? rhs with
    | none => exact Or.inr ⟨hr, rfl⟩
    | some v => exact Or.inl ⟨v, Or.inr ⟨hr, rfl⟩⟩
  · exact Or.inl ⟨v, Or.inl hv⟩

/-- All that a line with an `=` can come to, and why. -/
theorem enter_equals (hm : '=' ∈ line.toList) :
    (∃ lhs rhs, Assigning line lhs rhs ∧
        ((∃ v, enter limits vars line = (.quiet, vars.insert lhs v)) ∨
          enter limits vars line = (.refused .unknownVariable, vars))) ∨
      (Misnamed line ∧ enter limits vars line = (.refused .invalidIdentifier, vars)) ∨
      ((∀ lhs rhs, ¬Assigning line lhs rhs) ∧ ¬Misnamed line ∧
        enter limits vars line = (.refused .invalidAssignment, vars)) := by
  by_cases ha : ∃ lhs rhs, Assigning line lhs rhs
  · obtain ⟨lhs, rhs, ha⟩ := ha
    refine Or.inl ⟨lhs, rhs, ha, ?_⟩
    rcases ha.side_cases vars with ⟨v, hv⟩ | ⟨hr, hv⟩
    · exact Or.inl ⟨v, enter_assigning ha hv⟩
    · exact Or.inr (enter_unbound ha hr hv)
  · have hother : ∀ lhs rhs, ¬Assigning line lhs rhs := fun lhs rhs h => ha ⟨lhs, rhs, h⟩
    by_cases hn : Misnamed line
    · exact Or.inr (Or.inl ⟨hn, by simp only [enter, of_string_misnamed hn]⟩)
    · exact Or.inr (Or.inr ⟨hother, hn, by simp only [enter, of_string_unassigning hm hother hn]⟩)

/-- The lines of the form of an assignment are read as assignments, with these two sides;
    every other line with an `=` is refused for its form. An assignment binds its name, and
    that only, to the integer or the value of the name on its right, unless that name is
    not bound; and there is nothing else that a line with an `=` comes to. -/
theorem assignments_recognised (limits : Limits) (vars : Variables) (line : String) :
    (∀ lhs rhs, Line.ofString line = .ok (.assignment lhs rhs) ↔ Assigning line lhs rhs) ∧
      (Misnamed line → Line.ofString line = .error .invalidIdentifier) ∧
      ('=' ∈ line.toList → (∀ lhs rhs, ¬Assigning line lhs rhs) → ¬Misnamed line →
        Line.ofString line = .error .invalidAssignment) ∧
      (∀ lhs rhs, Assigning line lhs rhs →
        (∀ v, Literal rhs.toList v ∨ Letters rhs.toList ∧ vars.get? rhs = some v →
          ∃ after, enter limits vars line = (.quiet, after) ∧
            ∀ name, after.get? name = if name = lhs then some v else vars.get? name) ∧
        (Letters rhs.toList → vars.get? rhs = none →
          enter limits vars line = (.refused .unknownVariable, vars))) ∧
      ('=' ∈ line.toList →
        (∃ lhs rhs, Assigning line lhs rhs ∧
            ((∃ v, enter limits vars line = (.quiet, vars.insert lhs v)) ∨
              enter limits vars line = (.refused .unknownVariable, vars))) ∨
          (Misnamed line ∧ enter limits vars line = (.refused .invalidIdentifier, vars)) ∨
          ((∀ lhs rhs, ¬Assigning line lhs rhs) ∧ ¬Misnamed line ∧
            enter limits vars line = (.refused .invalidAssignment, vars))) := by
  refine ⟨fun lhs rhs => of_string_assigning_iff, of_string_misnamed, of_string_unassigning, ?_, enter_equals⟩
  intro lhs rhs h
  refine ⟨?_, enter_unbound h⟩
  intro v hv
  exact ⟨vars.insert lhs v, enter_assigning h hv, fun name => Variables.get_insert vars lhs name v⟩

/-- A no-break space before the `=` and zeros after the sign; a name that is not bound; one
    that has a digit in it. -/
theorem assignments_recognised_blanks :
    let vars := Variables.empty.insert "n" 5
    (∃ after, enter {} vars "x\u00a0= -007" = (.quiet, after) ∧ after.get? "x" = some (-7) ∧
        after.get? "n" = some 5) ∧
      enter {} vars "x = y" = (.refused .unknownVariable, vars) ∧
      Line.ofString "2b = 1" = .error .invalidIdentifier := by
  intro vars
  have hx : Letters "x".toList := Text.is_name_iff.mp (by decide)
  have hy : Letters "y".toList := Text.is_name_iff.mp (by decide)
  have hseven : Literal "-007".toList (-7) := Text.Decimal.signed_eq_some_iff.mp (by decide)
  have hspace : Blanks [' '] := by simp [Blanks, Text.isBlank]
  have hnone : Blanks [] := by simp [Blanks]
  have hnobreak : Assigning "x\u00a0= -007" "x" "-007" :=
    ⟨hx, Or.inr ⟨-7, hseven⟩, [], ['\u00a0'], [' '], [], hnone, by simp [Blanks, Text.isBlank], hspace, hnone, rfl⟩
  have hcopy : Assigning "x = y" "x" "y" :=
    ⟨hx, Or.inl hy, [], [' '], [' '], [], hnone, hspace, hspace, hnone, rfl⟩
  have hmixed : Misnamed "2b = 1" :=
    ⟨['2', 'b', ' '], [' ', '1'], rfl, by decide, by decide, is_mixed_name_iff.mp (by decide)⟩
  refine ⟨?_, ?_, (assignments_recognised {} vars "2b = 1").2.1 hmixed⟩
  · obtain ⟨after, henter, hafter⟩ :=
      ((assignments_recognised {} vars "x\u00a0= -007").2.2.2.1 "x" "-007" hnobreak).1 (-7) (Or.inl hseven)
    exact ⟨after, henter, by rw [hafter]; rfl, by rw [hafter]; rfl⟩
  · exact ((assignments_recognised {} vars "x = y").2.2.2.1 "x" "y" hcopy).2 hy rfl

end Reckon
