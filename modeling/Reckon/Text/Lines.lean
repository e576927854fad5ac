/-
  Reckon.Text.Lines — lines in a sequence of bytes.

  A line ends with a line feed; a carriage return just before it belongs to the ending.
  What is left after the last line feed is a line too unless it is empty, and keeps its
  carriage return. A line is text if its bytes are UTF-8.
-/

namespace Reckon.Text.Lines

def lineFeed : UInt8 := 10

def carriageReturn : UInt8 := 13

/-! ## Cutting -/

/-- Puts a byte in front of the pieces that follow it. -/
def consByte (b : UInt8) (pieces : List (List UInt8)) : List (List UInt8) :=
  if b = lineFeed then [b] :: pieces
  else
    match pieces with
    | [] => [[b]]
    | piece :: rest => (b :: piece) :: rest

/-- The bytes cut after every line feed. No piece is empty. -/
def pieces (bytes : List UInt8) : List (List UInt8) :=
  bytes.foldr consByte []

/-- A piece without its line ending. -/
def content (piece : List UInt8) : List UInt8 :=
  match piece.reverse with
  | b :: rest =>
    if b = lineFeed then
      match rest with
      | c :: rest' => if c = carriageReturn then rest'.reverse else rest.reverse
      | [] => []
    else piece
  | [] => []

/-! ## Text -/

/-- The text that bytes encode, if they are UTF-8. -/
def decode (bytes : List UInt8) : Option String :=
  String.fromUTF8? bytes.toByteArray

/-- The lines of a sequence of bytes, `none` for one that is not text. -/
def ofBytes (bytes : List UInt8) : List (Option String) :=
  (pieces bytes).map fun piece => decode (content piece)

end Reckon.Text.Lines
