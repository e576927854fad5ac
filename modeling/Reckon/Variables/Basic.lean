/-
  Reckon.Variables.Basic — the variables of a session.

  A variable is a name and an integer. The variables are kept in strictly ascending
  order of names, compared character by character by code point, which is the byte
  order of their UTF-8 forms. So two collections that hold the same bindings are equal,
  whatever the order in which they were made, and the listing needs no sorting.
-/

import Reckon.Text.Name
import Reckon.Text.Quoted

namespace Reckon

/-- Whether a text may name a variable. -/
def isVariableName (name : String) : Bool :=
  Text.isName name.toList

structure Variables where
  entries : List (String × Int)
  sorted : entries.Pairwise fun a b => a.1 < b.1
  deriving DecidableEq

namespace Variables

def empty : Variables := ⟨[], .nil⟩

/-- The bindings in ascending order of names. -/
def toList (vars : Variables) : List (String × Int) := vars.entries

def size (vars : Variables) : Nat := vars.entries.length

def isEmpty (vars : Variables) : Bool := vars.entries.isEmpty

/-- The value bound to a name. -/
def get? (vars : Variables) (name : String) : Option Int := vars.entries.lookup name

def contains (vars : Variables) (name : String) : Bool := vars.entries.any (·.1 == name)

/-! ## Binding a name -/

/-- Puts a binding at its place, instead of one of the same name if there is one. -/
def place (name : String) (value : Int) : List (String × Int) → List (String × Int)
  | [] => [(name, value)]
  | e :: es =>
    if name < e.1 then (name, value) :: e :: es
    else if name = e.1 then (name, value) :: es
    else e :: place name value es

theorem mem_place {name : String} {value : Int} {es : List (String × Int)} {e : String × Int}
    (h : e ∈ place name value es) : e = (name, value) ∨ e ∈ es := by
  induction es with
  | nil => exact Or.inl (List.mem_singleton.mp h)
  | cons d ds ih =>
    unfold place at h
    split at h
    · exact (List.mem_cons.mp h)
    · split at h
      · exact (List.mem_cons.mp h).imp_right (List.mem_cons_of_mem d)
      · rcases List.mem_cons.mp h with rfl | h
        · exact Or.inr List.mem_cons_self
        · exact (ih h).imp_right (List.mem_cons_of_mem d)

theorem lt_of_not_lt_of_ne {a b : String} (h : ¬a < b) (hne : a ≠ b) : b < a := by
  by_cases hb : b < a
  · exact hb
  · exact absurd (String.le_antisymm (String.not_lt.mp hb) (String.not_lt.mp h)) hne

theorem place_sorted {name : String} {value : Int} {es : List (String × Int)}
    (h : es.Pairwise fun a b => a.1 < b.1) : (place name value es).Pairwise fun a b => a.1 < b.1 := by
  induction es with
  | nil => exact List.pairwise_singleton _ _
  | cons d ds ih =>
    have hd : ∀ e ∈ ds, d.1 < e.1 := fun e he => List.rel_of_pairwise_cons h he
    unfold place
    split
    · next hlt =>
      refine List.pairwise_cons.mpr ⟨fun e he => ?_, h⟩
      rcases List.mem_cons.mp he with rfl | he
      · exact hlt
      · exact String.lt_trans hlt (hd e he)
    · next hge =>
      split
      · next heq =>
        subst heq
        exact List.pairwise_cons.mpr ⟨hd, h.of_cons⟩
      · next hne =>
        refine List.pairwise_cons.mpr ⟨fun e he => ?_, ih h.of_cons⟩
        rcases mem_place he with rfl | he
        · exact lt_of_not_lt_of_ne hge hne
        · exact hd e he

/-- Binds a name, which may be bound already. -/
def insert (vars : Variables) (name : String) (value : Int) : Variables :=
  ⟨place name value vars.entries, place_sorted vars.sorted⟩

/-! ## Binding only what may be a name -/

inductive NameError where
  /-- A text that is not one or more letters. -/
  | invalidName (name : String)
  deriving DecidableEq

def NameError.message : NameError → String
  | invalidName name => Text.Quoted.encode name ++ " is not a valid variable name"

/-- Binds a name, unless the text given for it is none. -/
def set (vars : Variables) (name : String) (value : Int) : Except NameError Variables :=
  if isVariableName name then .ok (vars.insert name value) else .error (.invalidName name)

end Variables

end Reckon
