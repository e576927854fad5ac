/-
  Reckon.Line — what a line is, before anything is computed.

  A line loses the blanks at its ends. Then it is blank, an assignment if it has an `=`,
  or an expression. The checks run in a fixed order and the first that fails decides the
  fault, so a line with several things wrong is always refused for the same reason.
-/

import Reckon.Fault
import Reckon.Text.Blank
import Reckon.Text.Decimal
import Reckon.Text.Name
import Reckon.Token.Lexer

namespace Reckon

inductive Line where
  | blank
  /-- The texts on the two sides of the `=`, without blanks at their ends. The left one is
      a name, the right one a name or a signed integer. -/
  | assignment (lhs rhs : String)
  /-- The tokens of the line, positions counted from its first character that is not a
      blank. -/
  | expression (tokens : List Token)
  deriving DecidableEq

namespace Line

/-! ## Assignments -/

/-- A line with an `=`. -/
def readAssignment (cs : List Char) : Except Fault Line :=
  if 1 < cs.count '=' then .error .invalidAssignment
  else
    let lhs := Text.trim (cs.takeWhile (· != '='))
    let rhs := Text.trim ((cs.dropWhile (· != '=')).drop 1)
    if Text.isMixedName lhs then .error .invalidIdentifier
    else if Text.isName lhs && (Text.isName rhs || Text.Decimal.isSigned rhs) then
      .ok (.assignment (String.ofList lhs) (String.ofList rhs))
    else .error .invalidAssignment

/-! ## Expressions -/

/-- Two neighbours that must not stand side by side: two numbers, or a number and a name
    that touch. -/
def clash (left right : Token) : Bool :=
  match left.kind, right.kind with
  | .num _, .num _ => true
  | .ident _, .num _ | .num _, .ident _ => left.stop == right.index
  | _, _ => false

/-- Whether some token must not stand beside the next. -/
def anyClash : List Token → Bool
  | left :: right :: rest => clash left right || anyClash (right :: rest)
  | _ => false

/-- An operator that must not be first: every one but a sign. -/
def danglesFirst (c : Char) : Bool :=
  c == '*' || c == '/' || c == '^'

/-- An operator that must not be last. A final `*` or `/` is found by running the code. -/
def danglesLast (c : Char) : Bool :=
  c == '+' || c == '-' || c == '^'

/-- A line without an `=`. -/
def readExpression (cs : List Char) : Except Fault Line :=
  if cs.head?.any danglesFirst || cs.getLast?.any danglesLast then .error .invalidExpression
  else
    match (Token.Lexer.ofList cs).tokens with
    | .error _ => .error .invalidExpression
    | .ok tokens =>
      if anyClash tokens then .error .invalidIdentifier
      else if tokens.countP (·.kind = .opening) ≠ tokens.countP (·.kind = .closing) then
        .error .invalidExpression
      else .ok (.expression tokens)

/-- What a line is, or why it is refused. -/
def ofString (text : String) : Except Fault Line :=
  let cs := Text.trim text.toList
  if cs.isEmpty then .ok .blank
  else if cs.contains '=' then readAssignment cs
  else readExpression cs

end Line

end Reckon
