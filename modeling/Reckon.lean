/-
  Reckon — an integer calculator with variables.

  A line of text is an expression over unbounded integers with `+ - * / ^`, signs,
  parentheses and names, or an assignment that binds a name. A line goes through
  - `Reckon.Line`: what kind of line it is, or why it is refused;
  - `Reckon.Formula.Symbol`: its tokens with names replaced by their values;
  - `Reckon.Formula.Signs`: runs of signs folded and unary signs applied;
  - `Reckon.Formula.Code`: instructions for a stack of values;
  - `Reckon.Formula.Value`: the value that they leave.

  `Reckon.Calculator` enters lines one after another, `Reckon.Console.Session` answers
  them as a program does, and `Reckon.Main` is that program.

  What is known of it is under `Reckon.Proofs`:
  - `Grammar.Meaning`: a line of the grammar comes to what it means;
  - `Grammar.Acceptance`: which of the lines that have a value are of the grammar;
  - `Congruence`: a group can be exchanged for one of the same value;
  - `Transparency`: a name can be exchanged for its value;
  - `Formula.Runs`: which runs of signs can be told by the count of their minuses;
  - `SignRuns`: of a run of signs only the parity of its minuses counts;
  - `Token.Tiling`: the tokens of a text tile it, up to the first character that is in none;
  - `Token.Printing`: tokens that were printed are read back;
  - `Line.Layout`: the gaps in a line and the zeros before its numbers do not count;
  - `Line.Refusal`: why an expression is refused, by its text;
  - `Formula.Grouping`: which parentheses a formula needs, and how operators group;
  - `Formula.Nesting`: signs are settled as if group by group;
  - `Formula.Depth`: what the settling of signs counts and what it adds, on any formula;
  - `Formula.NormalForm`: settled signs stay as they are, and which formulas are settled;
  - `Formula.Matching`: a formula is converted if its parentheses match, and keeps the rest;
  - `Formula.Postorder`: what a run of any code comes to;
  - `Formula.Magnitude`: how large the values on the stack can get;
  - `Arithmetic.Power`: powers are exact, and which of them are refused;
  - `Variables.InPlace`: any two texts are an assignment, or fail for one reason;
  - `Session.Budget`: what a higher limit on powers changes in a session;
  - `Session.Integrity`: what any requests can do to the variables;
  - `Session.Listing`: what is listed, counted and equal after any history;
  - `Session.History`: the variables are those that the lines entered tell;
  - `Session.Assigning`: which lines are assignments, and what else a line with an `=` does;
  - `Session.Readback`: what is shown can be entered again, alone or by way of a name;
  - `Session.Footprint`: which names a line reads and binds, and which lines commute;
  - `Session.Renaming`: other names for the variables change nothing else;
  - `Console.Conversation`: what the program writes for the bytes on its standard input;
  - `Console.Modes`: lines given as arguments are answered as those on the standard input.
-/

import Reckon.Arithmetic
import Reckon.Arithmetic.Lemmas
import Reckon.Calculator
import Reckon.Console.Command
import Reckon.Console.Options
import Reckon.Console.Session
import Reckon.Fault
import Reckon.Formula.Code
import Reckon.Formula.Signs
import Reckon.Formula.Symbol
import Reckon.Formula.Value
import Reckon.Line
import Reckon.Main
import Reckon.Operator
import Reckon.Proofs.Arithmetic.BitLength
import Reckon.Proofs.Arithmetic.Power
import Reckon.Proofs.Congruence
import Reckon.Proofs.Console.Conversation
import Reckon.Proofs.Console.Modes
import Reckon.Proofs.Except
import Reckon.Proofs.Formula.Conversion
import Reckon.Proofs.Formula.Depth
import Reckon.Proofs.Formula.Execution
import Reckon.Proofs.Formula.Grouping
import Reckon.Proofs.Formula.Inlining
import Reckon.Proofs.Formula.Magnitude
import Reckon.Proofs.Formula.Matching
import Reckon.Proofs.Formula.Nesting
import Reckon.Proofs.Formula.NormalForm
import Reckon.Proofs.Formula.Parentheses
import Reckon.Proofs.Formula.Postorder
import Reckon.Proofs.Formula.Rendering
import Reckon.Proofs.Formula.Runs
import Reckon.Proofs.Formula.Settling
import Reckon.Proofs.Formula.Surplus
import Reckon.Proofs.Grammar.Acceptance
import Reckon.Proofs.Grammar.Alternation
import Reckon.Proofs.Grammar.Meaning
import Reckon.Proofs.Grammar.Phrase
import Reckon.Proofs.Line.Assignment
import Reckon.Proofs.Line.Contents
import Reckon.Proofs.Line.Layout
import Reckon.Proofs.Line.Numeral
import Reckon.Proofs.Line.Reading
import Reckon.Proofs.Line.Refusal
import Reckon.Proofs.Session.Assigning
import Reckon.Proofs.Session.Budget
import Reckon.Proofs.Session.Entering
import Reckon.Proofs.Session.Footprint
import Reckon.Proofs.Session.History
import Reckon.Proofs.Session.Integrity
import Reckon.Proofs.Session.Listing
import Reckon.Proofs.Session.Readback
import Reckon.Proofs.Session.Renaming
import Reckon.Proofs.Session.Transcript
import Reckon.Proofs.SignRuns
import Reckon.Proofs.Text.Division
import Reckon.Proofs.Text.Encoding
import Reckon.Proofs.Text.Literal
import Reckon.Proofs.Text.Names
import Reckon.Proofs.Text.Occurrence
import Reckon.Proofs.Text.Renaming
import Reckon.Proofs.Text.Trimming
import Reckon.Proofs.Token.Ends
import Reckon.Proofs.Token.Printing
import Reckon.Proofs.Token.Reading
import Reckon.Proofs.Token.Renaming
import Reckon.Proofs.Token.Tiling
import Reckon.Proofs.Transparency
import Reckon.Proofs.Variables.Assignment
import Reckon.Proofs.Variables.InPlace
import Reckon.Proofs.Variables.Renaming
import Reckon.Stack
import Reckon.Text.Blank
import Reckon.Text.Decimal
import Reckon.Text.Decimal.Lemmas
import Reckon.Text.Extender
import Reckon.Text.Lines
import Reckon.Text.Name
import Reckon.Text.Quoted
import Reckon.Text.Unprintable
import Reckon.Token.Basic
import Reckon.Token.Lexer
import Reckon.Variables.Assignment
import Reckon.Variables.Basic
import Reckon.Variables.Lemmas
