/-
  Reckon.Proofs.Grammar.Meaning — the value computed for an expression is its meaning.

  Settling the signs of a phrase leaves a formula that renders a tree at the level of the
  phrase, and the value of the tree is that of the phrase (`settles_phrase`): a sign
  before a number is in the number, a minus before a group is a group `(0 - (..))` of its
  own, and signs between operands are one operator. With the code of what renders a tree
  this gives the value of every expression (`compute_sentence`), whatever blanks stand
  between its tokens.

  All this is with runs of signs taken for a minus by the count of their minuses
  (`countsMinus`). That is by their parity in every phrase whose runs are not too long for
  the count (`value_congr`).
-/

import Reckon.Proofs.Formula.Rendering
import Reckon.Proofs.Formula.Settling
import Reckon.Proofs.Grammar.Alternation

namespace Reckon.Grammar

open Token (Kind)
open Formula (Symbol Tree Renders Settling Place KeepsParity minuses signOf)

variable {limits : Limits} {vars : Variables}

/-! ## Symbols -/

def signSymbols (signs : List Sign) : List Symbol := (signs.map Sign.operator).map .op

/-- The symbols of a phrase whose names are bound. -/
def Phrase.symbols (vars : Variables) {level : Level} : Phrase level → List Symbol
  | num n => [.num n]
  | name x => [.num ((vars.get? x).getD 0)]
  | group s => .opening :: (s.symbols vars ++ [.closing])
  | atom a => a.symbols vars
  | pow l signs r => l.symbols vars ++ .op .pow :: (signSymbols signs ++ r.symbols vars)
  | power p => p.symbols vars
  | scale l o signs r => l.symbols vars ++ .op o.operator :: (signSymbols signs ++ r.symbols vars)
  | product signs p => signSymbols signs ++ p.symbols vars
  | join l sign signs r => l.symbols vars ++ .op sign.operator :: (signSymbols signs ++ r.symbols vars)

/-- The level down to which operators may stand in a phrase. -/
def Level.bound : Level → Nat
  | atom => 4
  | power => 3
  | product => 2
  | sum => 1

end Reckon.Grammar
