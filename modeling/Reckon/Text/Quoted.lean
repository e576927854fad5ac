/-
  Reckon.Text.Quoted — a text in double quotes, with every character made visible.

  Quotes and backslashes get a backslash in front; NUL, tab, line feed and carriage
  return have short names; any other character that leaves no mark of its own, or would
  attach to its neighbour, is spelled by its number in hexadecimal. All else stands for
  itself, an apostrophe included.

  What the tables of properties say is corrected at two places, so that what counts is
  what a reader sees: a Hangul filler is a letter but an empty one, and the half-width
  Katakana sound marks extend their letter but stand beside it.
-/

import Reckon.Text.Extender
import Reckon.Text.Unprintable

namespace Reckon.Text.Quoted

/-- The Hangul fillers: the letters with the property Default_Ignorable_Code_Point. -/
def isFiller (c : Char) : Bool :=
  c == '\u115f' || c == '\u1160' || c == '\u3164' || c == '\uffa0'

/-- The half-width Katakana sound marks: the letters with the property Grapheme_Extend. -/
def isSoundMark (c : Char) : Bool :=
  c == '\uff9e' || c == '\uff9f'

/-- A character that a reader would not see, or would see as part of another. -/
def isHidden (c : Char) : Bool :=
  isUnprintable c || isFiller c || (isExtender c && !isSoundMark c)

/-- How one character is written between the quotes. -/
def spell (c : Char) : List Char :=
  match c with
  | '\x00' => ['\\', '0']
  | '\t' => ['\\', 't']
  | '\n' => ['\\', 'n']
  | '\r' => ['\\', 'r']
  | '"' => ['\\', '"']
  | '\\' => ['\\', '\\']
  | c =>
    if isHidden c then
      ['\\', 'u', '{'] ++ Nat.toDigits 16 c.toNat ++ ['}']
    else [c]

/-- A text in double quotes. -/
def encode (text : String) : String :=
  String.ofList ('"' :: text.toList.flatMap spell ++ ['"'])

example : isHidden '\u1160' = true ∧ isHidden '\u1161' = false := by decide +kernel

example : isHidden '\uff9e' = false ∧ isHidden '\u3099' = true := by decide +kernel

example : (encode "a\tb\\\x1bé").toList = "\"a\\tb\\\\\\u\x7b1b\x7dé\"".toList := by decide +kernel

end Reckon.Text.Quoted
