/-
  Reckon.Proofs.Variables.InPlace — assignments that change the variables in place.

  `assign` answers with new variables or with a fault, and so cannot bind a name and then
  fail. Here an assignment is carried out on one collection of variables, step after step,
  and what was bound before a fault stays bound. It comes to the same
  (`assign_in_place_eq`): nothing is bound before the last check. All that a session can be
  asked for is a change of this kind (`Reckon.Proofs.Session.Integrity`).

  So any two texts, read from no line, are an assignment or fail for one reason: the right
  side is looked at first, and the left side only if the right one stands for a value
  (`assignFault`, `assign_in_place_decided`).
-/

import Reckon.Proofs.Variables.Assignment

namespace Reckon.Variables

open Text (Letters)
open Text.Decimal (Literal)

/-! ## One collection of variables -/

/-- Steps on one collection of variables, up to the first fault. A fault undoes nothing. -/
abbrev Change (ε α : Type) := ExceptT ε (StateM Variables) α

/-- What a change comes to, and the variables after it. -/
def Change.on {ε α : Type} (change : Change ε α) (vars : Variables) : Except ε α × Variables := change.run.run vars

namespace Change

variable {ε α β : Type} (vars : Variables)

@[simp] theorem on_pure (a : α) : (pure a : Change ε α).on vars = (.ok a, vars) := rfl

@[simp] theorem on_throw (e : ε) : (throw e : Change ε α).on vars = (.error e, vars) := rfl

@[simp] theorem on_get : (get : Change ε Variables).on vars = (.ok vars, vars) := rfl

@[simp] theorem on_modify (f : Variables → Variables) : (modify f : Change ε PUnit).on vars = (.ok ⟨⟩, f vars) := rfl

@[simp] theorem on_bind (x : Change ε α) (f : α → Change ε β) : (x >>= f).on vars =
    match x.on vars with
    | (.ok a, after) => (f a).on after
    | (.error e, after) => (.error e, after) := by
  show (ExceptT.bindCont f (x vars).1 (x vars).2) = match x vars with
    | (.ok a, after) => (f a).on after
    | (.error e, after) => (.error e, after)
  rcases x vars with ⟨_ | _, after⟩ <;> rfl

end Change

def setInPlace (name : String) (value : Int) : Change NameError Unit := do
  if isVariableName name then
    modify (·.insert name value)
  else
    throw (.invalidName name)

def assignInPlace (lhs rhs : String) : Change Fault Unit := do
  match (← get).source rhs with
  | .error fault => throw fault
  | .ok value => ExceptT.adapt (fun _ => .invalidIdentifier) (setInPlace lhs value)

theorem set_in_place_eq (vars : Variables) (name : String) (value : Int) : (setInPlace name value).on vars =
    match vars.set name value with
    | .ok after => (.ok (), after)
    | .error error => (.error error, vars) := by
  simp only [set, setInPlace]
  split <;> rfl

/-- A fault leaves the variables as they were. -/
theorem assign_in_place_eq (vars : Variables) (lhs rhs : String) : (assignInPlace lhs rhs).on vars =
    match vars.assign lhs rhs with
    | .ok after => (.ok (), after)
    | .error fault => (.error fault, vars) := by
  rw [assignInPlace, Change.on_bind, Change.on_get, assign]
  cases hs : vars.source rhs with
  | error fault => simp only [hs, Change.on_throw]
  | ok value =>
    simp only [hs, set, setInPlace]
    split <;> rfl

/-! ## Which fault -/

open Classical in
/-- Why `lhs = rhs` fails, if it does: of several reasons the first in this order. -/
noncomputable def assignFault (vars : Variables) (lhs rhs : String) : Option Fault :=
  if Letters rhs.toList ∧ vars.get? rhs = none then some .unknownVariable
  else if ¬Letters rhs.toList ∧ ¬∃ v, Literal rhs.toList v then some .invalidAssignment
  else if ¬Letters lhs.toList then some .invalidIdentifier
  else none

variable {vars : Variables} {lhs rhs : String}

theorem source_meaningless (h : ¬Letters rhs.toList) (hv : ¬∃ v, Literal rhs.toList v) :
    vars.source rhs = .error .invalidAssignment := by
  have hname : ¬isVariableName rhs = true := fun hn => h (is_variable_name_iff.mp hn)
  rw [source, if_neg hname]
  cases hs : Text.Decimal.signed? rhs.toList with
  | none => rfl
  | some v => exact absurd ⟨v, Text.Decimal.signed_eq_some_iff.mp hs⟩ hv

theorem assign_misnamed {v : Int} (h : vars.Denotes rhs v) (hl : ¬Letters lhs.toList) :
    vars.assign lhs rhs = .error .invalidIdentifier := by
  have hname : ¬isVariableName lhs = true := fun hn => hl (is_variable_name_iff.mp hn)
  rw [assign, source_eq_ok_iff.mpr h]
  simp only [set, if_neg hname]

/-- An assignment fails for the first reason there is, or has a value and binds it. -/
theorem assign_cases (vars : Variables) (lhs rhs : String) :
    (∃ fault, assignFault vars lhs rhs = some fault ∧ vars.assign lhs rhs = .error fault) ∨
      (assignFault vars lhs rhs = none ∧
        ∃ v, vars.Denotes rhs v ∧ vars.assign lhs rhs = .ok (vars.insert lhs v)) := by
  have fails : ∀ {fault : Fault}, vars.source rhs = .error fault → vars.assign lhs rhs = .error fault := by
    intro fault h
    rw [assign, h]
  by_cases hunbound : Letters rhs.toList ∧ vars.get? rhs = none
  · refine Or.inl ⟨.unknownVariable, by rw [assignFault, if_pos hunbound], ?_⟩
    exact fails (source_unbound hunbound.1 hunbound.2)
  by_cases hmeaningless : ¬Letters rhs.toList ∧ ¬∃ v, Literal rhs.toList v
  · refine Or.inl ⟨.invalidAssignment, by rw [assignFault, if_neg hunbound, if_pos hmeaningless], ?_⟩
    exact fails (source_meaningless hmeaningless.1 hmeaningless.2)
  have hvalue : ∃ v, vars.Denotes rhs v := by
    simp only [denotes_iff]
    by_cases hr : Letters rhs.toList
    · obtain ⟨v, hv⟩ := Option.ne_none_iff_exists'.mp fun hnone => hunbound ⟨hr, hnone⟩
      exact ⟨v, Or.inr ⟨hr, hv⟩⟩
    · obtain ⟨v, hv⟩ := not_not.mp fun hnone => hmeaningless ⟨hr, hnone⟩
      exact ⟨v, Or.inl hv⟩
  obtain ⟨v, hv⟩ := hvalue
  by_cases hl : Letters lhs.toList
  · refine Or.inr ⟨by rw [assignFault, if_neg hunbound, if_neg hmeaningless, if_neg (not_not_intro hl)], v, hv, ?_⟩
    exact assign_eq_ok_iff.mpr ⟨v, hv, is_variable_name_iff.mpr hl, rfl⟩
  · refine Or.inl ⟨.invalidIdentifier, by rw [assignFault, if_neg hunbound, if_neg hmeaningless, if_pos hl], ?_⟩
    exact assign_misnamed hv hl

/-- For any two texts: an assignment fails for the first reason there is, and leaves the
    variables as they were; or it binds the left side to what the right side stood for, and
    leaves all other names as they were. -/
theorem assign_in_place_decided (vars : Variables) (lhs rhs : String) :
    match assignFault vars lhs rhs with
    | some fault => vars.assign lhs rhs = .error fault ∧ (assignInPlace lhs rhs).on vars = (.error fault, vars)
    | none => ∃ v after, (Literal rhs.toList v ∨ Letters rhs.toList ∧ vars.get? rhs = some v) ∧
        vars.assign lhs rhs = .ok after ∧ (assignInPlace lhs rhs).on vars = (.ok (), after) ∧
        ∀ name, after.get? name = if name = lhs then some v else vars.get? name := by
  rw [assign_in_place_eq]
  rcases assign_cases vars lhs rhs with ⟨fault, hfault, ha⟩ | ⟨hfault, v, hv, ha⟩
  · rw [hfault, ha]
    exact ⟨rfl, rfl⟩
  · rw [hfault, ha]
    exact ⟨v, vars.insert lhs v, denotes_iff.mp hv, rfl, rfl, fun name => get_insert vars lhs name v⟩

/-- An unbound name on the right and a sign without digits are each reported before a left
    side that is no name; and a name is copied to itself. -/
theorem assign_in_place_decided_order :
    let vars := Variables.empty.insert "x" 3
    (assignInPlace "1" "y").on vars = (.error .unknownVariable, vars) ∧
      (assignInPlace "1" "+").on vars = (.error .invalidAssignment, vars) ∧
      ∃ after, (assignInPlace "x" "x").on vars = (.ok (), after) ∧ after.get? "x" = some 3 := by
  intro vars
  have hx : Letters "x".toList := is_variable_name_iff.mp (by decide)
  have hy : Letters "y".toList := is_variable_name_iff.mp (by decide)
  have hplus : ¬Letters "+".toList := fun h => absurd (is_variable_name_iff.mpr h) (by decide)
  have hsign : ¬∃ v, Literal "+".toList v := by
    rw [← Text.Decimal.is_signed_iff]
    decide
  have hunbound := assign_in_place_decided vars "1" "y"
  rw [assignFault, if_pos ⟨hy, rfl⟩] at hunbound
  have hdigits := assign_in_place_decided vars "1" "+"
  rw [assignFault, if_neg fun h => hplus h.1, if_pos ⟨hplus, hsign⟩] at hdigits
  have hself := assign_in_place_decided vars "x" "x"
  rw [assignFault, if_neg fun h => absurd h.2 (by decide), if_neg fun h => h.1 hx, if_neg (not_not_intro hx)] at hself
  obtain ⟨v, after, hv, -, hafter, hget⟩ := hself
  rcases hv with hv | ⟨-, hv⟩
  · cases (Text.Decimal.signed_eq_some_iff.mpr hv).symm.trans (signed_of_name (is_variable_name_iff.mpr hx))
  · exact ⟨hunbound.2, hdigits.2, after, hafter, (hget "x").trans hv.symm⟩

end Reckon.Variables
