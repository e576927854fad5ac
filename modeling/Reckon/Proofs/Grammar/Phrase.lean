/-
  Reckon.Proofs.Grammar.Phrase — the expressions that a calculator is meant to take.

      sum     = [signs] product { signs product }
      product = power { ("*" | "/") [signs] power }
      power   = atom { "^" [signs] atom }
      atom    = number | name | "(" sum ")"

  where `signs` is one or more of `+` and `-`. Operators of one level group to the left,
  powers included. Signs after an operand are one binary operator; all other signs are
  one sign of the atom that follows them, so `-2^2` is `(-2)^2`.

  `Phrase.meaning` is what an expression comes to, with runs of signs that amount to a
  minus where their parity says so (`isNegative`), or as another rule has it. Nothing in it
  looks at how an expression is computed.
-/

import Reckon.Arithmetic
import Reckon.Token.Basic
import Reckon.Variables.Basic

namespace Reckon.Grammar

open Token (Kind)

/-! ## Signs -/

inductive Sign where
  | plus
  | minus
  deriving DecidableEq

def Sign.operator : Sign → Operator
  | plus => .add
  | minus => .sub

/-- The binary operator that signs amount to. -/
def joining (negative : Bool) : Operator := if negative then .sub else .add

def signKinds (signs : List Sign) : List Kind := signs.map fun s => .op s.operator

/-! ## Integers -/

/-- An integer, with a minus before it if `negated`. -/
def signed (negated : Bool) (v : Int) : Int := if negated then -v else v

/-- The quotient without its fraction: that of the magnitudes, negative if one of the two
    integers is. -/
def quotient (a b : Int) : Int :=
  let magnitude := a.natAbs / b.natAbs
  if a < 0 ↔ b < 0 then magnitude else -(magnitude : Int)

/-- The value of an operator between two integers. -/
def operate (limits : Limits) (o : Operator) (a b : Int) : Except Fault Int :=
  match o with
  | .add => .ok (a + b)
  | .sub => .ok (a - b)
  | .mul => .ok (a * b)
  | .div => if b = 0 then .error .divisionByZero else .ok (quotient a b)
  | .pow => power limits a b

/-- The left operand, then the right one, then the operator, up to the first fault. -/
def combine (limits : Limits) (o : Operator) (left right : Except Fault Int) : Except Fault Int := do
  let a ← left
  let b ← right
  operate limits o a b

/-! ## Phrases -/

inductive Level where
  | atom
  | power
  | product
  | sum
  deriving DecidableEq

inductive Scaling where
  | mul
  | div
  deriving DecidableEq

def Scaling.operator : Scaling → Operator
  | mul => .mul
  | div => .div

/-- The derivations of the grammar, repetitions grouped to the left. -/
inductive Phrase : Level → Type where
  | num (n : Nat) : Phrase .atom
  | name (x : String) : Phrase .atom
  | group (s : Phrase .sum) : Phrase .atom
  | atom (a : Phrase .atom) : Phrase .power
  | pow (l : Phrase .power) (signs : List Sign) (r : Phrase .atom) : Phrase .power
  | power (p : Phrase .power) : Phrase .product
  | scale (l : Phrase .product) (o : Scaling) (signs : List Sign) (r : Phrase .power) : Phrase .product
  | product (signs : List Sign) (p : Phrase .product) : Phrase .sum
  | join (l : Phrase .sum) (sign : Sign) (signs : List Sign) (r : Phrase .product) : Phrase .sum

namespace Phrase

/-- The kinds of the tokens that a phrase is made of. -/
def kinds {level : Level} : Phrase level → List Kind
  | num n => [.num n]
  | name x => [.ident x]
  | group s => .opening :: (s.kinds ++ [.closing])
  | atom a => a.kinds
  | pow l signs r => l.kinds ++ .op .pow :: (signKinds signs ++ r.kinds)
  | power p => p.kinds
  | scale l o signs r => l.kinds ++ .op o.operator :: (signKinds signs ++ r.kinds)
  | product signs p => signKinds signs ++ p.kinds
  | join l sign signs r => l.kinds ++ .op sign.operator :: (signKinds signs ++ r.kinds)

section

variable (isMinus : List Sign → Bool) (limits : Limits) (vars : Variables)

/-- The value of a phrase, with a minus before its first atom if `negated`. Which runs of
    signs amount to a minus is left to `isMinus`. -/
def value (negated : Bool) {level : Level} : Phrase level → Except Fault Int
  | num n => .ok (signed negated n)
  | name x =>
    match vars.get? x with
    | some v => .ok (signed negated v)
    | none => .error .unknownVariable
  | group s => (s.value false).map (signed negated)
  | atom a => a.value negated
  | pow l signs r => combine limits .pow (l.value negated) (r.value (isMinus signs))
  | power p => p.value negated
  | scale l o signs r => combine limits o.operator (l.value negated) (r.value (isMinus signs))
  | product signs p => p.value (negated ^^ isMinus signs)
  | join l sign signs r =>
    combine limits (joining (isMinus (sign :: signs))) (l.value negated) (r.value false)

end

end Phrase

/-- The tokens of an expression of the grammar. -/
def IsSentence (ks : List Kind) : Prop := ∃ s : Phrase .sum, s.kinds = ks

end Reckon.Grammar
