/-
  Reckon.Proofs.Line.Assignment — lines with an `=`, by their two sides.

  What such a line is depends on the text before its first `=` and the text after it, the
  blanks at their ends apart (`of_string_sides`). It is an assignment exactly if a name
  stands on the left, and a name or a signed integer on the right
  (`of_string_assignment_iff`).
-/

import Reckon.Proofs.Line.Reading
import Reckon.Proofs.Text.Literal
import Reckon.Proofs.Text.Names
import Reckon.Proofs.Text.Trimming

namespace Reckon

open Text (trim trimLeft trimRight isName isMixedName)
open Text.Decimal (isSigned)

/-- The text before the first `=` and the text after it. -/
theorem sides_eq {a : List Char} (ha : '=' ∉ a) (b : List Char) :
    (a ++ '=' :: b).takeWhile (· != '=') = a ∧ ((a ++ '=' :: b).dropWhile (· != '=')).drop 1 = b := by
  have hp : ∀ c ∈ a, (c != '=') = true := by
    intro c hc
    simp only [bne_iff_ne]
    rintro rfl
    exact ha hc
  rw [List.takeWhile_append_of_pos hp, List.dropWhile_append_of_pos hp]
  simp

/-- What a line is that has these texts before and after its first `=`. -/
def Line.ofSides (lhs rhs : List Char) : Except Fault Line :=
  if '=' ∈ rhs then .error .invalidAssignment
  else if isMixedName lhs then .error .invalidIdentifier
  else if isName lhs && (isName rhs || isSigned rhs) then
    .ok (.assignment (String.ofList lhs) (String.ofList rhs))
  else .error .invalidAssignment

theorem read_assignment_sides {a : List Char} (ha : '=' ∉ a) (b : List Char) :
    Line.readAssignment (a ++ '=' :: b) = Line.ofSides (trim a) (trim b) := by
  have hcount : 1 < (a ++ '=' :: b).count '=' ↔ '=' ∈ trim b := by
    rw [List.count_append, List.count_cons_self, List.count_eq_zero_of_not_mem ha, Text.mem_trim_iff (by decide),
      ← List.count_pos_iff]
    omega
  obtain ⟨hl, hr⟩ := sides_eq ha b
  simp only [Line.readAssignment, Line.ofSides, hcount, hl, hr]

variable {line : String} {a b : List Char}

theorem of_string_sides (h : line.toList = a ++ '=' :: b) (ha : '=' ∉ a) :
    Line.ofString line = Line.ofSides (trim a) (trim b) := by
  have htrim : trim line.toList = trimLeft a ++ '=' :: trimRight b := by
    rw [h, Text.trim_append (by decide)]
  have hleft : '=' ∉ trimLeft a := fun hm => ha ((List.dropWhile_sublist _).mem hm)
  have hread : Line.ofString line = Line.readAssignment (trimLeft a ++ '=' :: trimRight b) := by
    rw [← htrim]
    simp [Line.ofString, htrim]
  rw [hread, read_assignment_sides hleft, Text.trim_trim_left, Text.trim_trim_right]

/-- A name is nothing that may have been meant as one. -/
theorem mixed_of_name {cs : List Char} (h : isName cs = true) : isMixedName cs = false := by
  have hletters := (Text.is_name_iff.mp h).2
  have hd : cs.any Char.isDigit = false := by
    rw [List.any_eq_false]
    intro c hc
    simp [Text.digit_of_letter (hletters c hc)]
  rw [isMixedName, hd, Bool.and_false]

/-- No `=` is left on a side that is a name or an integer. -/
theorem not_mem_side {cs : List Char} (h : isName cs = true ∨ isSigned cs = true) : '=' ∉ cs := by
  rcases h with h | h
  · intro hm
    exact absurd ((Text.is_name_iff.mp h).2 _ hm) (by decide)
  · obtain ⟨v, hv⟩ := Text.Decimal.is_signed_iff.mp h
    exact hv.not_mem_equals

theorem of_sides_eq_ok_iff {lhs rhs : List Char} {l : Line} : Line.ofSides lhs rhs = .ok l ↔
    isName lhs = true ∧ (isName rhs = true ∨ isSigned rhs = true) ∧
      l = .assignment (String.ofList lhs) (String.ofList rhs) := by
  unfold Line.ofSides
  constructor
  · intro h
    split at h
    · cases h
    · split at h
      · cases h
      · split at h
        · rename_i hsides
          simp only [Bool.and_eq_true, Bool.or_eq_true] at hsides
          cases h
          exact ⟨hsides.1, hsides.2, rfl⟩
        · cases h
  · rintro ⟨hl, hr, rfl⟩
    have hside : (isName lhs && (isName rhs || isSigned rhs)) = true := by simp [hl, hr]
    rw [if_neg (not_mem_side hr), mixed_of_name hl, if_pos hside]
    rfl

theorem of_string_assignment_iff {lhs rhs : String} : Line.ofString line = .ok (.assignment lhs rhs) ↔
    ∃ a b, line.toList = a ++ '=' :: b ∧ trim a = lhs.toList ∧ trim b = rhs.toList ∧ isVariableName lhs = true ∧
      (isVariableName rhs = true ∨ isSigned rhs.toList = true) := by
  constructor
  · intro h
    have hm : '=' ∈ line.toList := by
      by_cases hm : '=' ∈ trim line.toList
      · exact Text.mem_of_mem_trim hm
      · by_cases hn : trim line.toList = []
        · simp [Line.ofString, hn] at h
        · rw [of_string_expression ⟨hn, hm⟩] at h
          obtain ⟨ts, hts⟩ := expression_of_read h
          cases hts
    obtain ⟨a, b, hline, ha⟩ := List.eq_append_cons_of_mem hm
    rw [of_string_sides hline ha] at h
    obtain ⟨hl, hr, he⟩ := of_sides_eq_ok_iff.mp h
    cases he
    simp only [isVariableName, String.toList_ofList]
    exact ⟨a, b, hline, rfl, rfl, hl, hr⟩
  · rintro ⟨a, b, hline, hl, hr, hname, hside⟩
    have ha : '=' ∉ a := by
      rw [← Text.mem_trim_iff (by decide), hl]
      exact not_mem_side (Or.inl hname)
    rw [of_string_sides hline ha, hl, hr, of_sides_eq_ok_iff]
    exact ⟨hname, hside, by simp only [String.ofList_toList]⟩

end Reckon
