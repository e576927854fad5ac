/-
  Reckon.Formula.Code — a formula as instructions for a stack of values.

  Operands come first and each operator after its two operands, so no parentheses are
  left. An operator waits on a stack until one that binds no tighter, or the closing
  parenthesis of its group, releases it; hence operators of one level group to the left.
-/

import Reckon.Formula.Symbol
import Reckon.Stack

namespace Reckon.Formula

inductive Instr where
  | push (value : Int)
  | apply (o : Operator)
  deriving DecidableEq

/-- What waits for its right operand or for its closing parenthesis. -/
inductive Waiting where
  | op (o : Operator)
  | opening
  deriving DecidableEq

/-- A formula partly converted. -/
structure Conversion where
  /-- The instructions so far, the last one first. -/
  code : List Instr
  waiting : Stack Waiting
  deriving DecidableEq

namespace Conversion

def start : Conversion := ⟨[], Stack.empty⟩

/-- Releases the operators on top that bind at least as tightly as the level given. -/
def release (level : Nat) (code : List Instr) : Stack Waiting → Conversion
  | .op o :: below =>
    if o.precedence < level then ⟨code, .op o :: below⟩
    else release level (.apply o :: code) below
  | waiting => ⟨code, waiting⟩

/-- Releases the operators of a group and forgets its opening parenthesis. -/
def leave (code : List Instr) : Stack Waiting → Except Fault Conversion
  | .op o :: below => leave (.apply o :: code) below
  | .opening :: below => .ok ⟨code, below⟩
  | [] => .error .invalidExpression

/-- Releases everything; a parenthesis still open is a fault. -/
def finish (code : List Instr) : Stack Waiting → Except Fault (List Instr)
  | .op o :: below => finish (.apply o :: code) below
  | .opening :: _ => .error .invalidExpression
  | [] => .ok code.reverse

def step (c : Conversion) : Symbol → Except Fault Conversion
  | .num v => .ok { c with code := .push v :: c.code }
  | .op o =>
    let c := release o.precedence c.code c.waiting
    .ok { c with waiting := c.waiting.push (.op o) }
  | .opening => .ok { c with waiting := c.waiting.push .opening }
  | .closing => leave c.code c.waiting

end Conversion

/-- The instructions that compute a formula, if its parentheses match. -/
def toCode (symbols : List Symbol) : Except Fault (List Instr) := do
  let c ← symbols.foldlM Conversion.step Conversion.start
  Conversion.finish c.code c.waiting

end Reckon.Formula
