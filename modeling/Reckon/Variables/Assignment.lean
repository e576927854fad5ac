/-
  Reckon.Variables.Assignment — binding a name to an integer or to another's value.

  The right side is looked at first: a name is looked up, anything else must be a signed
  integer. Only then is the left side required to be a name. Nothing is bound unless
  both hold.
-/

import Reckon.Fault
import Reckon.Text.Decimal
import Reckon.Variables.Basic

namespace Reckon.Variables

/-- The value that the right side of an assignment stands for. -/
def source (vars : Variables) (rhs : String) : Except Fault Int :=
  if isVariableName rhs then
    match vars.get? rhs with
    | some value => .ok value
    | none => .error .unknownVariable
  else
    match Text.Decimal.signed? rhs.toList with
    | some value => .ok value
    | none => .error .invalidAssignment

/-- The variables after `lhs = rhs`. -/
def assign (vars : Variables) (lhs rhs : String) : Except Fault Variables :=
  match vars.source rhs with
  | .error fault => .error fault
  | .ok value =>
    match vars.set lhs value with
    | .error _ => .error .invalidIdentifier
    | .ok vars => .ok vars

end Reckon.Variables
