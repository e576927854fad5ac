/-
  Reckon.Proofs.Session.Renaming — no name is special.

  A line under other names is the same sort of line, or refused for the same reason: an
  assignment of the other names (`of_sides_text`), or an expression whose names have the
  values that they had (`compute_renamed`). So it has the same answer, and leaves the same
  variables under their other names (`enter_renamed`). So do all the lines of a session
  (`session_renamed`).
-/

import Reckon.Proofs.Session.Entering
import Reckon.Proofs.Session.Transcript
import Reckon.Proofs.Token.Renaming
import Reckon.Proofs.Variables.Renaming

namespace Reckon

open Text (trim isName)
open Text.Decimal (isSigned)
open Token (Kind)

namespace Renaming

variable (r : Renaming)

/-! ## Assignments -/

/-- What an assignment is under other names. -/
def sides : Line → Line
  | .assignment lhs rhs => .assignment (r.name lhs) (r.name rhs)
  | l => l

theorem text_of_side {cs : List Char} (h : isName cs = true ∨ isSigned cs = true) :
    String.ofList (r.text cs) = r.name (String.ofList cs) := by
  by_cases hname : isName cs = true
  · rw [text, Text.map_names_name (Text.is_name_iff.mp hname), word, String.ofList_toList]
  · obtain ⟨v, hv⟩ := Text.Decimal.is_signed_iff.mp (h.resolve_left hname)
    have hother : ¬isVariableName (String.ofList cs) = true := by rwa [isVariableName, String.toList_ofList]
    rw [text_of_no_letter fun c hc => hv.no_letter hc, r.name_of_not_name hother]

theorem of_sides_text (lhs rhs : List Char) :
    Line.ofSides (r.text lhs) (r.text rhs) = (Line.ofSides lhs rhs).map r.sides := by
  have hequals : '=' ∈ r.text rhs ↔ '=' ∈ rhs := r.mem_text_iff (by decide)
  simp only [Line.ofSides, hequals, r.is_mixed_name_text, r.is_name_text, r.is_signed_text]
  split
  · rfl
  · split
    · rfl
    · split
      · rename_i hsides
        simp only [Bool.and_eq_true, Bool.or_eq_true] at hsides
        rw [r.text_of_side (Or.inl hsides.1), r.text_of_side hsides.2]
        rfl
      · rfl

theorem line_sides {line : String} {a b : List Char} (h : line.toList = a ++ '=' :: b) :
    (r.line line).toList = r.text a ++ '=' :: r.text b := by
  rw [Renaming.line, String.toList_ofList, h, text_append (by simp), text_cons (by decide)]

theorem enter_assignment_renamed {line : String} (h : '=' ∈ line.toList) (limits : Limits) (vars : Variables) :
    enter limits (vars.rename r.name) (r.line line) =
      ((enter limits vars line).1, (enter limits vars line).2.rename r.name) := by
  obtain ⟨a, b, hline, ha⟩ := List.eq_append_cons_of_mem h
  have ha' : '=' ∉ r.text a := by rwa [r.mem_text_iff (by decide)]
  have hrenamed : Line.ofString (r.line line) = (Line.ofSides (trim a) (trim b)).map r.sides := by
    rw [of_string_sides (r.line_sides hline) ha', r.trim_text, r.trim_text, r.of_sides_text]
  rw [enter, enter, hrenamed, of_string_sides hline ha]
  cases hsides : Line.ofSides (trim a) (trim b) with
  | error fault => rfl
  | ok l =>
    obtain ⟨-, -, rfl⟩ := of_sides_eq_ok_iff.mp hsides
    simp only [Except.map, sides, Variables.assign_rename]
    cases vars.assign (String.ofList (trim a)) (String.ofList (trim b)) <;> rfl

/-! ## Expressions -/

@[simp] theorem symbol_renamed (vars : Variables) (k : Kind) :
    Formula.symbolOf (vars.rename r.name) (r.kind k) = Formula.symbolOf vars k := by
  cases k with
  | ident s => simp only [kind, Formula.symbolOf, Variables.get_rename r.name_injective]
  | num | op | opening | closing | equals => rfl

theorem trim_line (line : String) : trim (r.line line).toList = r.text (trim line.toList) := by
  rw [Renaming.line, String.toList_ofList, r.trim_text]

theorem expression_renamed {line : String} (h : IsExpression line) : IsExpression (r.line line) := by
  obtain ⟨hne, hequals⟩ := h
  rw [IsExpression, r.trim_line]
  refine ⟨?_, ?_⟩
  · intro hnil
    exact hne (r.text_eq_nil_iff.mp hnil)
  · intro hm
    exact hequals ((r.mem_text_iff (by decide)).mp hm)

theorem compute_renamed {line : String} (h : IsExpression line) (limits : Limits) (vars : Variables) :
    compute limits (vars.rename r.name) (r.line line) = compute limits vars line := by
  have htrimmed : Text.Trimmed (r.text (trim line.toList)) := by
    rw [← r.trim_text]
    exact Text.trimmed_trim _
  rw [compute_expression h, compute_expression (r.expression_renamed h), r.trim_line,
    r.kinds_of_text (Text.trimmed_trim _) htrimmed]
  cases kindsOf (trim line.toList) with
  | error fault => rfl
  | ok ks => exact compute_kinds_map limits vars r.kind fun k _ => r.symbol_renamed vars k

/-! ## Lines -/

theorem enter_renamed (limits : Limits) (vars : Variables) (line : String) :
    enter limits (vars.rename r.name) (r.line line) =
      ((enter limits vars line).1, (enter limits vars line).2.rename r.name) := by
  by_cases hequals : '=' ∈ line.toList
  · exact r.enter_assignment_renamed hequals limits vars
  · by_cases hblank : trim line.toList = []
    · have hblank' : trim (r.line line).toList = [] := by rw [r.trim_line, hblank]; rfl
      rw [enter, enter, of_string_blank_iff.mpr hblank, of_string_blank_iff.mpr hblank']
    · have he : IsExpression line := ⟨hblank, fun hm => hequals (Text.mem_of_mem_trim hm)⟩
      rw [enter_expression he, enter_expression (r.expression_renamed he), r.compute_renamed he]
      cases compute limits vars line <;> rfl

end Renaming

/-- A session under other names is the session, with the same answers and the variables
    under their other names after every line. -/
theorem session_renamed (r : Renaming) (limits : Limits) (vars : Variables) (lines : List String) :
    transcript (enter limits) (vars.rename r.name) (lines.map r.line) =
      (transcript (enter limits) vars lines).map fun e =>
        ⟨e.before.rename r.name, r.line e.input, e.answer, e.after.rename r.name⟩ :=
  transcript_map (r.enter_renamed limits) vars lines

theorem is_name_longer {s : String} (h : isVariableName s = true) : isVariableName (s ++ "x") = true := by
  obtain ⟨hne, hletters⟩ := Text.is_name_iff.mp h
  rw [isVariableName, Text.is_name_iff, String.toList_append]
  refine ⟨List.append_ne_nil_of_left_ne_nil hne _, ?_⟩
  intro c hc
  rcases List.mem_append.mp hc with hc | hc
  · exact hletters c hc
  · rw [List.mem_singleton.mp hc]
    rfl

/-- Every name gets one letter more. -/
def Renaming.longer : Renaming where
  map s := ⟨s.1 ++ "x", is_name_longer s.2⟩
  injective := by
    intro s t h
    have h := congrArg (fun n => n.1.toList) h
    simp only [String.toList_append] at h
    exact Subtype.ext (String.toList_inj.mp (List.append_cancel_right h))

/-- A name of the session that is the other name for one, and a number that touches a
    name. -/
theorem session_renamed_longer :
    let lines := ["x = 4", "xx = x", "2x", "xx ^ x", "y"]
    let renamed := ["xx = 4", "xxx = xx", "2xx", "xxx ^ xx", "yx"]
    lines.map Renaming.longer.line = renamed ∧
      (transcript (enter {}) .empty lines).map (·.answer) =
        [.quiet, .quiet, .refused .invalidIdentifier, .value 256, .refused .unknownVariable] ∧
      transcript (enter {}) .empty renamed = (transcript (enter {}) .empty lines).map fun e =>
        ⟨e.before.rename Renaming.longer.name, Renaming.longer.line e.input, e.answer,
          e.after.rename Renaming.longer.name⟩ := by
  intro lines renamed
  have hlines : lines.map Renaming.longer.line = renamed := by decide +kernel
  refine ⟨hlines, by decide +kernel, ?_⟩
  rw [← hlines]
  exact session_renamed Renaming.longer {} .empty lines

end Reckon
