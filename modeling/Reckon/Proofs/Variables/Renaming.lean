/-
  Reckon.Proofs.Variables.Renaming — the variables under other names.

  Renamed variables hold, under the other name, the value that they held under the name
  (`get_rename`), and nothing else (`get_rename_of_ne`). So binding and assigning commute
  with renaming (`rename_insert`, `assign_rename`).
-/

import Reckon.Proofs.Text.Renaming
import Reckon.Proofs.Variables.Assignment

namespace Reckon

namespace Variables

/-- The variables with `g name` in the place of each name. -/
def rename (g : String → String) (vars : Variables) : Variables :=
  vars.entries.foldr (fun e vs => vs.insert (g e.1) e.2) empty

variable {g : String → String}

theorem get_rename (hg : Function.Injective g) (vars : Variables) (name : String) :
    (vars.rename g).get? (g name) = vars.get? name := by
  have go : ∀ es : List (String × Int),
      (es.foldr (fun e (vs : Variables) => vs.insert (g e.1) e.2) empty).get? (g name) = es.lookup name := by
    intro es
    induction es with
    | nil => rfl
    | cons e es ih => simp only [List.foldr_cons, get_insert, ih, lookup_cons_eq, hg.eq_iff]
  exact go vars.entries

theorem get_rename_of_ne {name : String} (h : ∀ other, g other ≠ name) (vars : Variables) :
    (vars.rename g).get? name = none := by
  have go : ∀ es : List (String × Int),
      (es.foldr (fun e (vs : Variables) => vs.insert (g e.1) e.2) empty).get? name = none := by
    intro es
    induction es with
    | nil => rfl
    | cons e es ih => rw [List.foldr_cons, get_insert_of_ne _ (h e.1).symm, ih]
  exact go vars.entries

theorem rename_insert (hg : Function.Injective g) (vars : Variables) (name : String) (value : Int) :
    (vars.insert name value).rename g = (vars.rename g).insert (g name) value := by
  refine ext_get fun other => ?_
  by_cases h : ∃ n, g n = other
  · obtain ⟨n, rfl⟩ := h
    simp only [get_rename hg, get_insert, hg.eq_iff]
  · have hne : ∀ n, g n ≠ other := fun n hn => h ⟨n, hn⟩
    rw [get_rename_of_ne hne, get_insert_of_ne _ (hne name).symm, get_rename_of_ne hne]

/-! ## Assignments -/

variable (r : Renaming)

@[simp] theorem source_rename (vars : Variables) (rhs : String) :
    (vars.rename r.name).source (r.name rhs) = vars.source rhs := by
  unfold source
  rw [r.is_name_name, get_rename r.name_injective]
  by_cases h : isVariableName rhs = true
  · rw [if_pos h, if_pos h]
  · rw [if_neg h, if_neg h, r.name_of_not_name h]

theorem assign_rename (vars : Variables) (lhs rhs : String) :
    (vars.rename r.name).assign (r.name lhs) (r.name rhs) = (vars.assign lhs rhs).map (rename r.name) := by
  unfold assign
  rw [source_rename]
  cases vars.source rhs with
  | error fault => rfl
  | ok value =>
    simp only [set, r.is_name_name]
    by_cases h : isVariableName lhs = true
    · simp only [if_pos h, ← rename_insert r.name_injective]
      rfl
    · simp only [if_neg h]
      rfl

end Variables

end Reckon
