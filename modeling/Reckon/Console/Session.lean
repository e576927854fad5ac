/-
  Reckon.Console.Session — the calculator behind a console.

  The lines come from the arguments, or from standard input if the arguments hold none.
  Each is answered in turn: a command by the console, any other line by one calculator.
  The session stops at `/exit`, and at a line that is not text, which makes the program
  fail. What was written before stays written.
-/

import Reckon.Calculator
import Reckon.Console.Command
import Reckon.Console.Options
import Reckon.Text.Lines

namespace Reckon.Console

/-! ## One line -/

/-- How a session goes on after a line. -/
inductive Next where
  | more (calculator : Calculator)
  | stop (status : UInt32)
  deriving DecidableEq

/-- What a line makes the console write, and how the session goes on. -/
structure Reply where
  output : String
  next : Next
  deriving DecidableEq

/-- Status of a session that ended well. -/
def succeeded : UInt32 := 0

/-- Status of a session that met a line which is not text. -/
def unreadable : UInt32 := 1

/-- Status of a call whose arguments are not understood. -/
def misused : UInt32 := 2

/-- The answer to a line of text. -/
def respond (calculator : Calculator) (text : String) : Reply :=
  let line := String.ofList (Text.trim text.toList)
  if Command.looksLikeCommand line then
    let command := Command.ofString? line
    ⟨answer command ++ "\n", if command = some .exit then .stop succeeded else .more calculator⟩
  else
    let (outcome, calculator) := calculator.enter line
    match outcome.message with
    | some message => ⟨message ++ "\n", .more calculator⟩
    | none => ⟨"", .more calculator⟩

/-- The answer to a line that may not be text. -/
def reply (calculator : Calculator) : Option String → Reply
  | some text => respond calculator text
  | none => ⟨"", .stop unreadable⟩

/-! ## Whole sessions -/

/-- What the program writes and the status that it ends with. -/
structure Report where
  output : String
  status : UInt32
  deriving DecidableEq

/-- The answers to all lines up to the one that stops the session. -/
def serve (calculator : Calculator) : List (Option String) → Report
  | [] => ⟨"", succeeded⟩
  | line :: lines =>
    let r := reply calculator line
    match r.next with
    | .stop status => ⟨r.output, status⟩
    | .more calculator =>
      let later := serve calculator lines
      ⟨r.output ++ later.output, later.status⟩

/-- What a program does with its arguments, as `parse` understands them, and the bytes on
    its standard input. -/
def sessionWith (parse : List String → Option Options) (args : List String) (stdin : List UInt8) : Report :=
  match parse args with
  | none => ⟨"", misused⟩
  | some options =>
    let lines := if options.lines.isEmpty then Text.Lines.ofBytes stdin else options.lines.map some
    serve ⟨options.limits, .empty⟩ lines

/-- What the program does. -/
def session (args : List String) (stdin : List UInt8) : Report := sessionWith Options.ofArgs? args stdin

end Reckon.Console
