/-
  Reckon.Console.Command — lines that are for the console and not for the calculator.

  A line whose first character, blanks aside, is `/` is a command. There are two; any
  other is unknown.
-/

import Reckon.Text.Blank

namespace Reckon.Console

inductive Command where
  | exit
  | help
  deriving DecidableEq

namespace Command

/-- Whether a line is a command, known or not. -/
def looksLikeCommand (line : String) : Bool :=
  (Text.trimLeft line.toList).head? == some '/'

/-- The command that a line spells, if it is one of the two. -/
def ofString? (line : String) : Option Command :=
  let cs := Text.trim line.toList
  if cs = "/exit".toList then some .exit
  else if cs = "/help".toList then some .help
  else none

end Command

/-! ## What the console says -/

def farewell : String := "Bye!"

def unknownCommand : String := "Unknown command"

def help : String :=
  "The program calculates integer expressions with +, -, *, / and ^.\n" ++
  "Several signs in a row are folded: 5 - - 2 is 5 + 2 and 5 - - - 2 is 5 - 2.\n" ++
  "Division truncates toward zero and parentheses can be used to group.\n" ++
  "Assign a variable with `name = value`, where name is made of Latin letters\n" ++
  "and value is an integer or another variable, then use it in expressions.\n" ++
  "Commands: /help shows this message, /exit quits."

/-- The answer to a command, or to a line that only looks like one. -/
def answer : Option Command → String
  | some .exit => farewell
  | some .help => help
  | none => unknownCommand

end Reckon.Console
