/-
  Reckon.Proofs.Session.Readback — an integer means the same wherever it is written.

  Integers are read in two places that have nothing in common: as the only operand of an
  expression, where digits are read first and the sign is applied to them afterwards, and
  as the right side of an assignment, which is read as a whole. A literal comes to the
  integer that it denotes in both, so entering it shows what entering a name shows that
  is bound to it (`ReadsBack`). The text of a value is a literal of that value. So what
  any line shows can be entered again, alone or by way of a name, and shows the same
  (`enter_readback`).
-/

import Reckon.Proofs.Line.Numeral
import Reckon.Proofs.Session.Entering

namespace Reckon

open Text.Decimal (Literal)

/-- A text stands for an integer, entered alone as well as by way of a name. -/
structure ReadsBack (limits : Limits) (vars : Variables) (t name : String) (v : Int) : Prop where
  alone : enter limits vars t = (.value v, vars)
  bound : enter limits vars (name ++ " = " ++ t) = (.quiet, vars.insert name v)
  back : enter limits (enter limits vars (name ++ " = " ++ t)).2 name = (.value v, vars.insert name v)

theorem of_string_literal {t name : String} {v : Int} (ht : Literal t.toList v) (hname : isVariableName name = true) :
    Line.ofString (name ++ " = " ++ t) = .ok (.assignment name t) := by
  have hblank : ∀ c ∈ [' '], Text.isBlank c = true := fun c hc => List.mem_singleton.mp hc ▸ rfl
  have hnone : ∀ c ∈ ([] : List Char), Text.isBlank c = true := by simp
  have hline : (name ++ " = " ++ t).toList = (name.toList ++ [' ']) ++ '=' :: (' ' :: t.toList) := by simp
  have hl : Text.trim (name.toList ++ [' ']) = name.toList :=
    Text.trim_around hnone hblank (Text.trimmed_letters (Text.is_name_iff.mp hname))
  have hr : Text.trim (' ' :: t.toList) = t.toList := by
    have h := Text.trim_around hblank hnone ht.trimmed
    rwa [List.append_nil] at h
  rw [of_string_assignment_iff]
  exact ⟨_, _, hline, hl, hr, hname, Or.inr (Text.Decimal.is_signed_iff.mpr ⟨v, ht⟩)⟩

theorem reads_back_literal {t name : String} {v : Int} (ht : Literal t.toList v) (hname : isVariableName name = true)
    (limits : Limits) (vars : Variables) : ReadsBack limits vars t name v := by
  have hbound : enter limits vars (name ++ " = " ++ t) = (.quiet, vars.insert name v) :=
    enter_assignment (of_string_literal ht hname) (.integer (Text.Decimal.signed_eq_some_iff.mpr ht)) limits
  refine ⟨enter_of_compute (compute_literal ht limits vars), hbound, ?_⟩
  rw [hbound]
  exact enter_of_compute (compute_name hname (Variables.get_insert_self vars name v) limits)

/-- A literal shows the integer that it denotes, alone and by way of any name, and so does
    the text that is shown for an integer, which is shown for it again. -/
theorem enter_readback (limits : Limits) (vars : Variables) :
    (∀ (t name : String) (v : Int), Literal t.toList v → isVariableName name = true →
        ReadsBack limits vars t name v) ∧
      ∀ (v : Int) (shown name : String), (Outcome.value v).message = some shown → isVariableName name = true →
        ReadsBack limits vars shown name v ∧ (enter limits vars shown).1.message = some shown ∧
          (enter limits (enter limits vars (name ++ " = " ++ shown)).2 name).1.message = some shown := by
  refine ⟨fun t name v ht hname => reads_back_literal ht hname limits vars, ?_⟩
  intro v shown name hshown hname
  obtain rfl : Text.Decimal.text v = shown := Option.some.inj hshown
  have h := reads_back_literal (literal_text v) hname limits vars
  exact ⟨h, by rw [h.alone, hshown], by rw [h.back, hshown]⟩

/-- Leading zeros and a sign that is not written. -/
theorem enter_readback_zeros :
    let vars := Variables.empty.insert "x" 3
    ReadsBack {} vars "+007" "x" 7 ∧ enter {} vars "+007" = (.value 7, vars) ∧
      ReadsBack {} vars "-12" "y" (-12) ∧ (enter {} vars "2 - 14").1.message = some "-12" := by
  intro vars
  obtain ⟨hliteral, hshown⟩ := enter_readback {} vars
  have hdigits : Text.Decimal.Digits ['0', '0', '7'] := by simp [Text.Decimal.Digits]
  have hseven : Literal "+007".toList 7 := .plus hdigits
  have h := hliteral "+007" "x" 7 hseven rfl
  exact ⟨h, h.alone, (hshown (-12) "-12" "y" (by decide +kernel) rfl).1, by decide +kernel⟩

end Reckon
