/-
  Reckon.Text.Decimal — integers as decimal text.

  Reading: a non-empty run of the digits 0 to 9, leading zeros allowed, of any length;
  a signed integer has one `+` or `-` in front of it. Writing: no leading zeros, `-` in
  front of a negative integer, and zero is `0`. Writing divides by powers of ten in
  halves, so that a power with a hundred thousand digits is printed in a moment.
-/

namespace Reckon.Text.Decimal

/-! ## Reading -/

/-- The integer that a run of digits denotes. -/
def value (cs : List Char) : Nat :=
  Nat.ofDigitChars 10 cs 0

/-- One or more digits. -/
def isNatural (cs : List Char) : Bool :=
  !cs.isEmpty && cs.all Char.isDigit

/-- The integer denoted by one or more digits. -/
def natural? (cs : List Char) : Option Nat :=
  if isNatural cs then some (value cs) else none

/-- The integer denoted by an optional single sign and one or more digits. -/
def signed? : List Char → Option Int
  | '-' :: cs => (natural? cs).map fun n => -(n : Int)
  | '+' :: cs => (natural? cs).map fun n => (n : Int)
  | cs => (natural? cs).map fun n => (n : Int)

/-- An optional single sign and one or more digits. -/
def isSigned (cs : List Char) : Bool :=
  (signed? cs).isSome

/-! ## Writing -/

/-- The last `2 ^ k` digits of `n`, leading zeros included, in front of `tail`. -/
def padded : Nat → Nat → List Char → List Char
  | 0, n, tail => (n % 10).digitChar :: tail
  | k + 1, n, tail =>
    let half := Nat.pow 10 (Nat.pow 2 k)
    padded k (n / half) (padded k (n % half) tail)

/-- A `k` for which `n` has at most `2 ^ k` digits. -/
def halvings (n : Nat) : Nat :=
  (n.log2 / 3 + 1).log2 + 1

/-- The decimal digits of `n`, without leading zeros. -/
def digits (n : Nat) : List Char :=
  match (padded (halvings n) n []).dropWhile (· == '0') with
  | [] => ['0']
  | c :: cs => c :: cs

/-- The digits of an integer, after a `-` if it is negative. -/
def signedDigits : Int → List Char
  | .ofNat n => digits n
  | .negSucc n => '-' :: digits (n + 1)

/-- The decimal text of an integer. -/
def text (v : Int) : String :=
  String.ofList (signedDigits v)

end Reckon.Text.Decimal
