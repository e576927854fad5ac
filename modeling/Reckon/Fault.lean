/-
  Reckon.Fault — why a line is refused.

  One cause per kind of refusal, and the wording that the user sees for it.
-/

namespace Reckon

inductive Fault where
  /-- An `=` that does not stand alone between a name and an integer or a name. -/
  | invalidAssignment
  /-- Letters and digits in one word, or two numbers in a row. -/
  | invalidIdentifier
  /-- A name that no assignment has bound. -/
  | unknownVariable
  /-- An unknown character, a dangling operator, an unmatched parenthesis, or operands
      without an operator between them. -/
  | invalidExpression
  /-- A zero divisor, or a negative power of zero. -/
  | divisionByZero
  /-- A power that could be larger than the limit. -/
  | arithmeticOverflow
  deriving DecidableEq

/-- The text shown for a refusal. -/
def Fault.message : Fault → String
  | invalidAssignment => "Invalid assignment"
  | invalidIdentifier => "Invalid identifier"
  | unknownVariable => "Unknown variable"
  | invalidExpression => "Invalid expression"
  | divisionByZero => "Division by zero"
  | arithmeticOverflow => "Arithmetic overflow"

end Reckon
