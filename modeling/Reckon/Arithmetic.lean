/-
  Reckon.Arithmetic — exact integer arithmetic, with a limit on powers.

  Integers are unbounded, so only a power can grow out of proportion to the line that
  asks for it. A power is refused by an estimate taken before it is computed: base `b`
  and exponent `e` give at most `bitLength b * e` bits. Bases of magnitude at most one
  and negative exponents never grow and are exempt.
-/

import Reckon.Fault
import Reckon.Operator

namespace Reckon

/-! ## Limits -/

/-- The limit on powers when none is chosen: somewhat over 315 000 decimal digits. -/
def defaultMaxPowerBits : UInt64 := 1048576

structure Limits where
  /-- A power that may need more bits than this is refused. -/
  maxPowerBits : UInt64 := defaultMaxPowerBits
  deriving DecidableEq

/-- The number of binary digits of the magnitude, none for zero. -/
def bitLength (v : Int) : Nat :=
  if v = 0 then 0 else v.natAbs.log2 + 1

/-- The estimate of the bits that `b ^ e` needs, kept within 64 bits. -/
def powerBits (b : Int) (e : Nat) : Nat :=
  min (bitLength b * e) (UInt64.size - 1)

/-! ## Powers -/

/-- The power `b ^ e`, computed on magnitudes. -/
def intPow (b : Int) (e : Nat) : Int :=
  let magnitude := Nat.pow b.natAbs e
  if b < 0 ∧ e % 2 = 1 then -(magnitude : Int) else magnitude

/-- The power `b ^ e` truncated toward zero, with `0 ^ 0 = 1`. Exponents of `2 ^ 32` and
    more are refused whatever the limit. -/
def power (limits : Limits) (b e : Int) : Except Fault Int :=
  if b = 0 then
    if e < 0 then .error .divisionByZero
    else if e = 0 then .ok 1
    else .ok 0
  else if b.natAbs = 1 then
    .ok (if b < 0 ∧ e % 2 = 1 then -1 else 1)
  else if e < 0 then
    .ok 0
  else if UInt32.size ≤ e.toNat ∨ limits.maxPowerBits.toNat < powerBits b e.toNat then
    .error .arithmeticOverflow
  else
    .ok (intPow b e.toNat)

/-- The value of `l o r`; division truncates toward zero. -/
def Operator.apply (limits : Limits) (o : Operator) (l r : Int) : Except Fault Int :=
  match o with
  | add => .ok (l + r)
  | sub => .ok (l - r)
  | mul => .ok (l * r)
  | div => if r = 0 then .error .divisionByZero else .ok (l.tdiv r)
  | pow => power limits l r

end Reckon
