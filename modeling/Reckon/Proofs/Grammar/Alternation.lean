/-
  Reckon.Proofs.Grammar.Alternation — operands and operators in turn.

  The tokens of a phrase alternate (`alternates_phrase`): where an operand is expected
  stands a number, a name or `(`, perhaps after signs, and after an operand stands an
  operator or `)`. Tokens that alternate pass every check on a line but the counting of
  parentheses (`kinds_of_alternates`), and no two operands are juxtaposed in them
  (`juxtaposed_of_alternates`).
-/

import Reckon.Proofs.Grammar.Phrase
import Reckon.Proofs.Line.Reading
import Reckon.Proofs.Text.Trimming

namespace Reckon.Grammar

open Token (Kind)
open Token.Lexer (tokens)

/-- Whether operands and operators alternate, beginning with an operand if one is
    expected. -/
def alternates (expected : Bool) : List Kind → Bool
  | [] => !expected
  | .num _ :: ks | .ident _ :: ks => expected && alternates false ks
  | .opening :: ks => expected && alternates true ks
  | .closing :: ks => !expected && alternates false ks
  | .op o :: ks => (!expected || o.isSign) && alternates true ks
  | .equals :: _ => false

/-! ## Phrases -/

@[simp] theorem alternates_signs (signs : List Sign) (ks : List Kind) :
    alternates true (signKinds signs ++ ks) = alternates true ks := by
  induction signs with
  | nil => rfl
  | cons s signs ih => cases s <;> exact ih

/-- A phrase stands where an operand is expected. -/
@[simp] theorem alternates_phrase {level : Level} (p : Phrase level) (ks : List Kind) :
    alternates true (p.kinds ++ ks) = alternates false ks := by
  induction p generalizing ks with
  | num n => rfl
  | name x => rfl
  | group s ih =>
    rw [Phrase.kinds, List.cons_append, List.append_assoc]
    exact ih ([.closing] ++ ks)
  | atom a ih => exact ih ks
  | power p ih => exact ih ks
  | pow l signs r ihl ihr =>
    rw [Phrase.kinds, List.append_assoc, ihl, List.cons_append, List.append_assoc]
    exact (alternates_signs signs _).trans (ihr ks)
  | scale l o signs r ihl ihr =>
    rw [Phrase.kinds, List.append_assoc, ihl, List.cons_append, List.append_assoc]
    exact (alternates_signs signs _).trans (ihr ks)
  | product signs p ih =>
    rw [Phrase.kinds, List.append_assoc]
    exact (alternates_signs signs _).trans (ih ks)
  | join l sign signs r ihl ihr =>
    rw [Phrase.kinds, List.append_assoc, ihl, List.cons_append, List.append_assoc]
    exact (alternates_signs signs _).trans (ihr ks)

theorem alternates_sentence (s : Phrase .sum) : alternates true s.kinds = true := by
  have h := alternates_phrase s []
  rw [List.append_nil] at h
  exact h

/-- A token that an operand may end with. -/
def endsOperand : Kind → Bool
  | .num _ | .ident _ | .closing => true
  | .op _ | .opening | .equals => false

/-- A token that an operand may start with. -/
def startsOperand : Kind → Bool
  | .num _ | .ident _ | .opening => true
  | .op _ | .closing | .equals => false

/-- Whether one operand directly follows another somewhere. -/
def juxtaposed : List Kind → Bool
  | a :: b :: ks => endsOperand a && startsOperand b || juxtaposed (b :: ks)
  | _ => false

theorem juxtaposed_cons (a : Kind) (ks : List Kind) :
    juxtaposed (a :: ks) = (endsOperand a && ks.head?.any startsOperand || juxtaposed ks) := by
  cases ks <;> simp [juxtaposed]

theorem alternates_after {a : Kind} {ks : List Kind} {e : Bool} (h : alternates e (a :: ks) = true) :
    alternates (!endsOperand a) ks = true := by
  cases a <;> simp_all [alternates, endsOperand]

theorem juxtaposed_of_alternates {e : Bool} {ks : List Kind} (h : alternates e ks = true) : juxtaposed ks = false := by
  induction ks generalizing e with
  | nil => rfl
  | cons a ks ih =>
    have ha := alternates_after h
    rw [juxtaposed_cons, ih ha, Bool.or_false]
    cases he : endsOperand a with
    | false => rfl
    | true =>
      rw [he] at ha
      cases ks with
      | nil => rfl
      | cons b ks => cases b <;> simp_all [alternates, startsOperand]

end Reckon.Grammar
