/-
  Reckon.Formula.Symbol — an expression with its variables replaced by their values.

  The symbols of a formula stand in the usual order, operators between their operands,
  with parentheses for grouping. A list of symbols need not be well formed.
-/

import Reckon.Fault
import Reckon.Token.Basic
import Reckon.Variables.Basic

namespace Reckon.Formula

inductive Symbol where
  | num (value : Int)
  | op (o : Operator)
  | opening
  | closing
  deriving DecidableEq

/-- The symbol that a token stands for. -/
def symbolOf (vars : Variables) : Token.Kind → Except Fault Symbol
  | .num value => .ok (.num value)
  | .ident name =>
    match vars.get? name with
    | some value => .ok (.num value)
    | none => .error .unknownVariable
  | .op o => .ok (.op o)
  | .opening => .ok .opening
  | .closing => .ok .closing
  | .equals => .error .invalidExpression

/-- The formula that a line of tokens stands for; the first token without a symbol
    decides the fault. -/
def ofTokens (vars : Variables) (tokens : List Token) : Except Fault (List Symbol) :=
  tokens.mapM fun t => symbolOf vars t.kind

end Reckon.Formula
