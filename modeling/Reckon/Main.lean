/-
  Reckon.Main — the program.

  Answers each line as soon as it is read. What is answered is decided in
  `Reckon.Console.Session`; here is only the reading and writing.
-/

import Reckon.Console.Session

namespace Reckon.Console

def usage : String := "usage: reckon [--max-power-bits N] [--] [LINE]..."

/-- The bytes up to the next line feed, that included, or to the end of the input. -/
partial def readPiece (stdin : IO.FS.Stream) (read : Array UInt8) : IO (Array UInt8) := do
  let bytes ← stdin.read 1
  match bytes.toList with
  | [] => return read
  | b :: _ => if b = Text.Lines.lineFeed then return read.push b else readPiece stdin (read.push b)

/-- Answers the lines of the standard input until one stops the session. -/
partial def converse (stdin stdout : IO.FS.Stream) (calculator : Calculator) : IO UInt32 := do
  let piece ← readPiece stdin #[]
  if piece.isEmpty then return succeeded
  let r := reply calculator (Text.Lines.decode (Text.Lines.content piece.toList))
  stdout.putStr r.output
  stdout.flush
  match r.next with
  | .more calculator => converse stdin stdout calculator
  | .stop status => return status

end Reckon.Console

open Reckon.Console in
def main (args : List String) : IO UInt32 := do
  match Options.ofArgs? args with
  | none =>
    IO.eprintln usage
    return misused
  | some options =>
    if options.lines.isEmpty then
      converse (← IO.getStdin) (← IO.getStdout) ⟨options.limits, .empty⟩
    else
      let report := serve ⟨options.limits, .empty⟩ (options.lines.map some)
      IO.print report.output
      return report.status
