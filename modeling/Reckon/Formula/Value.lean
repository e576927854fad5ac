/-
  Reckon.Formula.Value — running instructions on a stack of values.

  An operator takes its right operand off the stack first and then its left one, and
  puts its result there. A run succeeds if exactly one value is left; too few operands
  or too many values are a fault.
-/

import Reckon.Arithmetic
import Reckon.Formula.Code

namespace Reckon.Formula

/-- The stack after one instruction. -/
def exec (limits : Limits) (stack : Stack Int) : Instr → Except Fault (Stack Int)
  | .push v => .ok (stack.push v)
  | .apply o =>
    match stack with
    | right :: left :: below =>
      match o.apply limits left right with
      | .ok v => .ok (Stack.push below v)
      | .error fault => .error fault
    | _ => .error .invalidExpression

/-- The value that a list of instructions leaves. -/
def run (limits : Limits) (code : List Instr) : Except Fault Int := do
  match ← code.foldlM (exec limits) Stack.empty with
  | [v] => .ok v
  | _ => .error .invalidExpression

end Reckon.Formula
