/-
  Reckon.Token.Lexer — reading tokens off a text.

  Between tokens a text may hold spaces, tabs, line feeds and carriage returns. A digit
  starts a number and a letter a name, each as long as it can be; the operators, the
  parentheses and `=` are tokens by themselves. Any other character ends the reading
  with an error at its position, after which nothing more is read. Digits and letters
  are the ASCII ones.

  Every character that is passed over is ASCII and so one byte long: the number of
  characters read so far is the byte position.
-/

import Reckon.Text.Decimal
import Reckon.Token.Basic

namespace Reckon.Token

/-- The characters that may separate tokens. -/
def isGap (c : Char) : Bool :=
  c == ' ' || c == '\n' || c == '\r' || c == '\t'

inductive LexError where
  /-- A character that belongs to no token, and its byte position. -/
  | unknownCharacter (index : Nat)
  deriving DecidableEq

/-- A text as far as it is still to be read, and the byte position where that begins. -/
structure Lexer where
  rest : List Char
  pos : Nat
  deriving DecidableEq

namespace Lexer

def ofList (cs : List Char) : Lexer := ⟨cs, 0⟩

def ofString (text : String) : Lexer := ofList text.toList

/-- Passes over the characters in front that satisfy `p`. -/
def skip (p : Char → Bool) (l : Lexer) : Lexer :=
  ⟨l.rest.dropWhile p, l.pos + (l.rest.takeWhile p).length⟩

/-- The token made of the characters in front that satisfy `p`, and what follows it. -/
def run (p : Char → Bool) (kind : List Char → Kind) (l : Lexer) : Token × Lexer :=
  let word := l.rest.takeWhile p
  (⟨kind word, l.pos, word.length⟩, l.skip p)

/-- The next token or error, and what is still to be read after it; `none` once only
    gaps are left. -/
def next? (l : Lexer) : Option (Except LexError Token × Lexer) :=
  let l := l.skip isGap
  match l.rest with
  | [] => none
  | c :: cs =>
    match Kind.ofChar? c with
    | some kind => some (.ok ⟨kind, l.pos, 1⟩, ⟨cs, l.pos + 1⟩)
    | none =>
      if c.isDigit then
        let (t, after) := l.run Char.isDigit fun ds => .num (Text.Decimal.value ds)
        some (.ok t, after)
      else if c.isAlpha then
        let (t, after) := l.run Char.isAlpha fun cs => .ident (String.ofList cs)
        some (.ok t, after)
      else
        some (.error (.unknownCharacter l.pos), ⟨[], l.pos⟩)

theorem length_skip_le (p : Char → Bool) (l : Lexer) : (l.skip p).rest.length ≤ l.rest.length :=
  (List.dropWhile_sublist p).length_le

theorem length_skip_lt {p : Char → Bool} {l : Lexer} {c : Char} {cs : List Char}
    (h : l.rest = c :: cs) (hc : p c = true) : (l.skip p).rest.length < l.rest.length := by
  rw [skip, h, List.dropWhile_cons_of_pos hc, List.length_cons]
  exact Nat.lt_succ_of_le (List.dropWhile_sublist p).length_le

/-- Reading a token or an error leaves less to read. -/
theorem length_next_lt {l l' : Lexer} {item : Except LexError Token}
    (h : l.next? = some (item, l')) : l'.rest.length < l.rest.length := by
  have hs := length_skip_le isGap l
  unfold next? at h
  simp only at h
  split at h
  · cases h
  · next c cs hc =>
    have hlen : (l.skip isGap).rest.length = cs.length + 1 := by rw [hc]; rfl
    split at h
    · cases h; simp only; omega
    · split at h
      · next hd => cases h; exact Nat.lt_of_lt_of_le (length_skip_lt hc hd) hs
      · split at h
        · next ha => cases h; exact Nat.lt_of_lt_of_le (length_skip_lt hc ha) hs
        · cases h; simp only [List.length_nil]; omega

/-- All that is still to be read, in order. -/
def items (l : Lexer) : List (Except LexError Token) :=
  match _ : l.next? with
  | none => []
  | some (item, after) => item :: after.items
termination_by l.rest.length
decreasing_by exact length_next_lt ‹_›

/-- All tokens that are still to be read, or the error that ends them. -/
def tokens (l : Lexer) : Except LexError (List Token) :=
  l.items.mapM id

end Lexer

end Reckon.Token
