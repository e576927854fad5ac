/-
  Reckon.Operator — the five binary operators.

  How each is written, how tightly it binds, and which of them can also stand as a sign
  in front of an operand. All operators group to the left within one level of binding,
  powers included: `2 ^ 3 ^ 2` is `(2 ^ 3) ^ 2`.
-/

namespace Reckon

inductive Operator where
  | add
  | sub
  | mul
  | div
  | pow
  deriving DecidableEq

namespace Operator

/-- The character that writes an operator. -/
def symbol : Operator → Char
  | add => '+'
  | sub => '-'
  | mul => '*'
  | div => '/'
  | pow => '^'

/-- The operator that a character writes. -/
def ofChar? : Char → Option Operator
  | '+' => some add
  | '-' => some sub
  | '*' => some mul
  | '/' => some div
  | '^' => some pow
  | _ => none

/-- The level of binding; a higher one binds tighter. -/
def precedence : Operator → Nat
  | add | sub => 1
  | mul | div => 2
  | pow => 3

/-- Whether an operator can also stand as a sign. -/
def isSign : Operator → Bool
  | add | sub => true
  | mul | div | pow => false

@[simp] theorem of_char_eq_some_iff {c : Char} {o : Operator} : ofChar? c = some o ↔ c = o.symbol := by
  constructor
  · intro h
    unfold ofChar? at h
    split at h <;> simp at h <;> subst h <;> rfl
  · rintro rfl
    cases o <;> rfl

end Operator

end Reckon
