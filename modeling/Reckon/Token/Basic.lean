/-
  Reckon.Token.Basic — the tokens of a line and where they stand.
-/

import Reckon.Operator

namespace Reckon

namespace Token

inductive Kind where
  | num (value : Nat)
  | ident (name : String)
  | op (o : Operator)
  | opening
  | closing
  | equals
  deriving DecidableEq

/-- The token that a character is on its own. -/
def Kind.ofChar? (c : Char) : Option Kind :=
  match Operator.ofChar? c with
  | some o => some (.op o)
  | none =>
    match c with
    | '(' => some .opening
    | ')' => some .closing
    | '=' => some .equals
    | _ => none

end Token

/-- A token, the position of its first byte in the text, and the number of its bytes. -/
structure Token where
  kind : Token.Kind
  index : Nat
  len : Nat
  deriving DecidableEq

/-- The position one past the last byte. -/
def Token.stop (t : Token) : Nat :=
  t.index + t.len

end Reckon
