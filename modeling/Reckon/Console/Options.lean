/-
  Reckon.Console.Options — the arguments of the program.

  `--max-power-bits N`, or the same with `=` before `N`, sets the limit on powers, at most
  once. Other arguments are lines to enter. An argument that begins with `-` is a line
  only if it is `-` itself or comes after `--`.

  The theory of sessions rests on two of these conventions (`Understands`), not on this
  parser, and holds with any other that keeps to them.
-/

import Reckon.Arithmetic
import Reckon.Text.Decimal

namespace Reckon.Console

structure Options where
  limits : Limits
  /-- The lines given as arguments. -/
  lines : List String
  deriving DecidableEq

namespace Options

/-- A limit: one or more digits after an optional `+`, within 64 bits. -/
def limit? (text : String) : Option UInt64 :=
  let digits :=
    match text.toList with
    | '+' :: cs => cs
    | cs => cs
  match Text.Decimal.natural? digits with
  | some n => if n < UInt64.size then some (UInt64.ofNat n) else none
  | none => none

/-- The options and lines among the arguments, given the limit chosen so far; `none` if
    an argument is not understood. -/
def read (limit : Option UInt64) : List String → Option (Option UInt64 × List String)
  | [] => some (limit, [])
  | arg :: args =>
    if arg = "--" then some (limit, args)
    else if arg = "--max-power-bits" then
      match limit, args with
      | none, value :: rest =>
        match limit? value with
        | some n => read (some n) rest
        | none => none
      | _, _ => none
    else
      match "--max-power-bits=".toList.isPrefixOf? arg.toList with
      | some value =>
        match limit, limit? (String.ofList value) with
        | none, some n => read (some n) args
        | _, _ => none
      | none =>
        if arg.toList.head? = some '-' ∧ arg ≠ "-" then none
        else (read limit args).map fun (limit, lines) => (limit, arg :: lines)

/-- The arguments that set the limit on powers. -/
def limiting (limit : UInt64) : List String := ["--max-power-bits", Text.Decimal.text limit.toNat]

/-- A parser keeps to two conventions: `--max-power-bits` sets the limit, and everything after
    `--` is a line. -/
structure Understands (parse : List String → Option Options) : Prop where
  limit : ∀ limit, parse (limiting limit) = some ⟨⟨limit⟩, []⟩
  lines : ∀ limit lines, parse (limiting limit ++ "--" :: lines) = some ⟨⟨limit⟩, lines⟩

/-- The options that the arguments spell, if they are understood. -/
def ofArgs? (args : List String) : Option Options :=
  (read none args).map fun (limit, lines) =>
    match limit with
    | some n => ⟨⟨n⟩, lines⟩
    | none => ⟨{}, lines⟩

end Options

end Reckon.Console
