/-
  Reckon.Proofs.Session.History — the variables as the lines tell them.

  What a name is bound to can be read off a transcript from its end: the last line that
  was carried out as an assignment to the name decides, either by the integer that it
  gives or by what the name that it copies was bound to before it (`valueTold`). After a
  session that began with no variables this is what look-up finds, and steps that were
  no assignments can be left out of any session without a trace in the others
  (`history_tells_variables`).
-/

import Reckon.Proofs.Session.Entering
import Reckon.Proofs.Session.Transcript

namespace Reckon

/-! ## Reading a transcript -/

/-- One line entered in a session. -/
abbrev Entered := Step Variables String Outcome

/-- The two sides of a line that was carried out as an assignment. -/
def Entered.assignment? (e : Entered) : Option (String × String) :=
  match e.answer, Line.ofString e.input with
  | .quiet, .ok (.assignment lhs rhs) => some (lhs, rhs)
  | _, _ => none

/-- What a name is bound to, by the lines and their answers alone; the last step comes
    first. -/
def valueTold : List Entered → String → Option Int
  | [], _ => none
  | e :: earlier, name =>
    match e.assignment? with
    | none => valueTold earlier name
    | some (lhs, rhs) =>
      if lhs = name then
        match Text.Decimal.signed? rhs.toList with
        | some value => some value
        | none => valueTold earlier rhs
      else valueTold earlier name

/-- The line was blank, or it showed a value, or it was refused. -/
def Entered.Idle (e : Entered) : Prop :=
  Text.trim e.input.toList = [] ∨ (∃ v, e.answer = .value v) ∨ ∃ fault, e.answer = .refused fault

/-- The second transcript is the first without some of its idle steps. -/
inductive Thinned : List Entered → List Entered → Prop
  | nil : Thinned [] []
  | keep (e : Entered) {log rest : List Entered} : Thinned log rest → Thinned (e :: log) (e :: rest)
  | drop {e : Entered} {log rest : List Entered} : e.Idle → Thinned log rest → Thinned (e :: log) rest

variable (limits : Limits)

/-- The step that a line makes in a session. -/
def stepOf (vars : Variables) (line : String) : Entered :=
  ⟨vars, line, (enter limits vars line).1, (enter limits vars line).2⟩

/-! ## One step -/

theorem assignment_of_idle {e : Entered} (h : e.Idle) : e.assignment? = none := by
  unfold Entered.assignment?
  rcases h with hblank | ⟨v, hv⟩ | ⟨fault, hf⟩
  · rw [of_string_blank_iff.mpr hblank]
    cases e.answer <;> rfl
  · rw [hv]
  · rw [hf]

/-- A step carries out an assignment, or it is idle and leaves the variables alone. -/
theorem step_of_cases (vars : Variables) (line : String) :
    (∃ lhs rhs value, (stepOf limits vars line).assignment? = some (lhs, rhs) ∧ vars.Denotes rhs value ∧
        (enter limits vars line).2 = vars.insert lhs value) ∨
      ((stepOf limits vars line).Idle ∧ (enter limits vars line).2 = vars) := by
  rcases enter_cases limits vars line with ⟨lhs, rhs, value, hline, hrhs, -, he⟩ | ⟨hblank, he⟩ | ⟨v, he⟩ | ⟨fault, he⟩
  · exact Or.inl ⟨lhs, rhs, value, by simp only [Entered.assignment?, stepOf, he, hline], hrhs, by rw [he]⟩
  · exact Or.inr ⟨Or.inl hblank, by rw [he]⟩
  · exact Or.inr ⟨Or.inr (Or.inl ⟨v, by rw [stepOf, he]⟩), by rw [he]⟩
  · exact Or.inr ⟨Or.inr (Or.inr ⟨fault, by rw [stepOf, he]⟩), by rw [he]⟩

/-- If a transcript tells the variables before a line, it tells them after the line. -/
theorem get_step_of {vars : Variables} {log : List Entered} (h : ∀ other, vars.get? other = valueTold log other)
    (line name : String) :
    (enter limits vars line).2.get? name = valueTold (stepOf limits vars line :: log) name := by
  rcases step_of_cases limits vars line with ⟨lhs, rhs, value, ha, hrhs, hafter⟩ | ⟨hidle, hafter⟩
  · simp only [valueTold, ha, hafter]
    by_cases hname : lhs = name
    · rw [hname, Variables.get_insert_self, if_pos rfl]
      cases hrhs with
      | integer hs => rw [hs]
      | copy hn hg =>
        rw [signed_of_name hn]
        exact hg.symm.trans (h rhs)
    · rw [if_neg hname, Variables.get_insert_of_ne _ (Ne.symm hname)]
      exact h name
  · simp only [valueTold, assignment_of_idle hidle, hafter]
    exact h name

theorem enter_idle {vars : Variables} {line : String} (h : (stepOf limits vars line).Idle) :
    (enter limits vars line).2 = vars := by
  rcases step_of_cases limits vars line with ⟨lhs, rhs, value, ha, -, -⟩ | ⟨-, hafter⟩
  · rw [assignment_of_idle h] at ha
    cases ha
  · exact hafter

/-! ## Whole sessions -/

/-- Look-up finds what the transcript tells. -/
theorem get_state_after (lines : List String) (name : String) :
    (stateAfter (enter limits) .empty lines).get? name =
      valueTold (transcript (enter limits) .empty lines).reverse name := by
  -- from the end, as the last line is asked first; a copy asks for another name
  induction lines using List.reverseRecOn generalizing name with
  | nil => rfl
  | append_singleton lines line ih =>
    rw [state_after_append, transcript_append, List.reverse_append]
    exact get_step_of limits ih line name

/-- Idle steps can be left out: every other step is as it was. -/
theorem transcript_thinned {vars : Variables} {lines : List String} {log : List Entered}
    (h : Thinned (transcript (enter limits) vars lines) log) :
    transcript (enter limits) vars (log.map (·.input)) = log ∧
      stateAfter (enter limits) vars (log.map (·.input)) = stateAfter (enter limits) vars lines := by
  induction lines generalizing vars log with
  | nil =>
    cases h
    exact ⟨rfl, rfl⟩
  | cons line lines ih =>
    cases h with
    | keep e h =>
      obtain ⟨hlog, hend⟩ := ih h
      exact ⟨congrArg (_ :: ·) hlog, hend⟩
    | drop hidle h =>
      have hsame : (enter limits vars line).2 = vars := enter_idle limits hidle
      rw [hsame] at h
      obtain ⟨hlog, hend⟩ := ih h
      refine ⟨hlog, hend.trans ?_⟩
      show _ = stateAfter (enter limits) (enter limits vars line).2 lines
      rw [hsame]

/-- The variables after a session from none are those that its transcript tells, and any
    session is the same without some of its idle steps. -/
theorem history_tells_variables :
    (∀ lines name, (stateAfter (enter limits) .empty lines).get? name =
        valueTold (transcript (enter limits) .empty lines).reverse name) ∧
      ∀ vars lines log, Thinned (transcript (enter limits) vars lines) log →
        transcript (enter limits) vars (log.map (·.input)) = log ∧
          stateAfter (enter limits) vars (log.map (·.input)) = stateAfter (enter limits) vars lines :=
  ⟨get_state_after limits, fun _ _ _ => transcript_thinned limits⟩

/-- A copy keeps its value when the name copied is bound again, and the refused lines can
    be left out. -/
theorem history_tells_variables_copy :
    let lines := ["a = 5", "b = a", "1 / 0", "a = -7", "c = d", "b"]
    let a := Variables.empty.insert "a" 5
    let b := a.insert "b" 5
    let c := b.insert "a" (-7)
    let log : List Entered := [⟨.empty, "a = 5", .quiet, a⟩, ⟨a, "b = a", .quiet, b⟩, ⟨b, "a = -7", .quiet, c⟩,
      ⟨c, "b", .value 5, c⟩]
    valueTold (transcript (enter {}) .empty lines).reverse "b" = some 5 ∧
      (stateAfter (enter {}) .empty lines).get? "b" = some 5 ∧
      transcript (enter {}) .empty ["a = 5", "b = a", "a = -7", "b"] = log ∧
      stateAfter (enter {}) .empty ["a = 5", "b = a", "a = -7", "b"] = stateAfter (enter {}) .empty lines := by
  intro lines a b c log
  have hlog : transcript (enter {}) .empty lines =
      [⟨.empty, "a = 5", .quiet, a⟩, ⟨a, "b = a", .quiet, b⟩, ⟨b, "1 / 0", .refused .divisionByZero, b⟩,
        ⟨b, "a = -7", .quiet, c⟩, ⟨c, "c = d", .refused .unknownVariable, c⟩, ⟨c, "b", .value 5, c⟩] := by
    decide +kernel
  have hthin : Thinned (transcript (enter {}) .empty lines) log := by
    rw [hlog]
    exact .keep _ (.keep _ (.drop (Or.inr (Or.inr ⟨_, rfl⟩)) (.keep _ (.drop (Or.inr (Or.inr ⟨_, rfl⟩)) (.keep _ .nil)))))
  have htold : valueTold (transcript (enter {}) .empty lines).reverse "b" = some 5 := by
    rw [hlog]
    decide +kernel
  obtain ⟨htells, hthinned⟩ := history_tells_variables {}
  exact ⟨htold, (htells lines "b").trans htold, hthinned .empty lines log hthin⟩

end Reckon
