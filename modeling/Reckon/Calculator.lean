/-
  Reckon.Calculator — entering lines one after another.

  An expression is computed from the variables and leaves them alone; an assignment
  binds one name and shows nothing; a blank line does nothing. A line that is refused
  changes nothing.
-/

import Reckon.Formula.Signs
import Reckon.Formula.Value
import Reckon.Line
import Reckon.Variables.Assignment

namespace Reckon

/-! ## One line -/

/-- What a line came to. -/
inductive Outcome where
  /-- The value of an expression. -/
  | value (v : Int)
  /-- Nothing to show, as for an assignment. -/
  | quiet
  | refused (fault : Fault)
  deriving DecidableEq

/-- The text to show, if there is any. -/
def Outcome.message : Outcome → Option String
  | value v => some (Text.Decimal.text v)
  | quiet => none
  | refused fault => some fault.message

/-- The value of a line of tokens. -/
def computeTokens (limits : Limits) (vars : Variables) (tokens : List Token) : Except Fault Int := do
  let symbols ← Formula.ofTokens vars tokens
  let code ← Formula.toCode (Formula.settleSigns symbols)
  Formula.run limits code

/-- The value of an expression; any other line is refused. -/
def compute (limits : Limits) (vars : Variables) (line : String) : Except Fault Int := do
  match ← Line.ofString line with
  | .expression tokens => computeTokens limits vars tokens
  | .blank | .assignment .. => .error .invalidExpression

/-- What a line comes to when it is entered, and the variables after it. -/
def enter (limits : Limits) (vars : Variables) (line : String) : Outcome × Variables :=
  match Line.ofString line with
  | .error fault => (.refused fault, vars)
  | .ok .blank => (.quiet, vars)
  | .ok (.assignment lhs rhs) =>
    match vars.assign lhs rhs with
    | .ok vars' => (.quiet, vars')
    | .error fault => (.refused fault, vars)
  | .ok (.expression tokens) =>
    match computeTokens limits vars tokens with
    | .ok value => (.value value, vars)
    | .error fault => (.refused fault, vars)

/-! ## Sessions -/

structure Calculator where
  limits : Limits := {}
  vars : Variables := .empty
  deriving DecidableEq

/-- What a line comes to, and the calculator after it. -/
def Calculator.enter (c : Calculator) (line : String) : Outcome × Calculator :=
  let (outcome, vars) := Reckon.enter c.limits c.vars line
  (outcome, { c with vars := vars })

end Reckon
