/-
  Reckon.Proofs.Console.Conversation — what a whole session writes, said of its lines.

  A line of text shows what it shows after the lines before it: a command its answer, any
  other line the message of one calculator that was given the lines before it which are no
  commands (`shown`). The session stops at the first line that is `/exit` or is no text,
  and writes what the lines before that one show (`report`). No calculator is carried from
  line to line here; the session that does carry one comes to the same, for any bytes on
  the standard input (`session_of_input`):
  - commands and blank lines change nothing for the lines after them;
  - what stands after the line that stops the session changes nothing at all.
-/

import Reckon.Console.Session
import Reckon.Proofs.Session.Entering
import Reckon.Proofs.Session.Transcript
import Reckon.Proofs.Text.Division
import Reckon.Proofs.Text.Trimming
import Reckon.Text.Decimal.Lemmas

namespace Reckon.Console

open Text.Lines (Holds)

/-! ## Lines -/

/-- Whether a line is for the console: blanks aside it begins with `/`. -/
def isCommand (line : String) : Bool := (Text.trim line.toList).head? == some '/'

def isExit (line : String) : Bool := Text.trim line.toList == "/exit".toList

def isHelp (line : String) : Bool := Text.trim line.toList == "/help".toList

def isBlankLine (line : String) : Bool := (Text.trim line.toList).isEmpty

/-- Whether the session stops at a line; `none` is a line that is no text. -/
def stops : Option String → Bool
  | none => true
  | some line => isExit line

/-! ## What is written -/

/-- The calculator after some lines, those that are commands left out. -/
def calculatorAfter (limits : Limits) (lines : List String) : Calculator :=
  stateAfter Calculator.enter ⟨limits, .empty⟩ (lines.filter (!isCommand ·))

/-- What a line shows after the lines before it. -/
def shown (limits : Limits) (earlier : List String) (line : String) : Option String :=
  if isCommand line then some (if isHelp line then help else "Unknown command")
  else ((calculatorAfter limits earlier).enter line).1.message

def written : Option String → String
  | some message => message ++ "\n"
  | none => ""

/-- What some lines make the console write after the lines before them. -/
def conversation (limits : Limits) (earlier : List String) : List String → String
  | [] => ""
  | line :: lines => written (shown limits earlier line) ++ conversation limits (earlier ++ [line]) lines

/-- How a session ends, by the line that stops it, if there is one. -/
def ending : Option (Option String) → Report
  | none => ⟨"", 0⟩
  | some none => ⟨"", 1⟩
  | some (some _) => ⟨"Bye!\n", 0⟩

/-- What a session comes to after some lines: those before the first one that stops it are
    answered, and this one decides how it ends. -/
def report (limits : Limits) (earlier : List String) (lines : List (Option String)) : Report :=
  let last := ending (lines.find? stops)
  ⟨conversation limits earlier ((lines.takeWhile (!stops ·)).filterMap id) ++ last.output, last.status⟩

/-! ## One line -/

theorem looks_like_command (line : String) :
    Command.looksLikeCommand (String.ofList (Text.trim line.toList)) = isCommand line := by
  rw [Command.looksLikeCommand, String.toList_ofList, Text.trim_left_trimmed (Text.trimmed_trim _), isCommand]

theorem command_of_trim (line : String) : Command.ofString? (String.ofList (Text.trim line.toList)) =
    if isExit line then some .exit else if isHelp line then some .help else none := by
  rw [Command.ofString?, String.toList_ofList, Text.trim_trimmed (Text.trimmed_trim _)]
  simp only [isExit, isHelp, beq_iff_eq]

theorem command_of_exit {line : String} (h : isExit line = true) : isCommand line = true := by
  rw [isExit, beq_iff_eq] at h
  rw [isCommand, h]
  rfl

theorem enter_trim (limits : Limits) (vars : Variables) (line : String) :
    Reckon.enter limits vars (String.ofList (Text.trim line.toList)) = Reckon.enter limits vars line := by
  have h : Line.ofString (String.ofList (Text.trim line.toList)) = Line.ofString line := by
    simp only [Line.ofString, String.toList_ofList, Text.trim_trimmed (Text.trimmed_trim line.toList)]
  simp only [Reckon.enter, h]

theorem respond_exit {line : String} (h : isExit line = true) (c : Calculator) :
    respond c line = ⟨"Bye!\n", .stop 0⟩ := by
  simp only [respond, looks_like_command, command_of_trim, command_of_exit h, h, if_true]
  rfl

theorem respond_command {line : String} (h : isCommand line = true) (he : isExit line = false) (c : Calculator) :
    respond c line = ⟨written (some (if isHelp line then help else "Unknown command")), .more c⟩ := by
  simp only [respond, looks_like_command, command_of_trim, h, he, if_true]
  by_cases hh : isHelp line = true <;> simp [hh, answer, written, unknownCommand]

theorem respond_calculation {line : String} (h : isCommand line = false) (c : Calculator) :
    respond c line = ⟨written (c.enter line).1.message, .more (c.enter line).2⟩ := by
  have htrim : c.enter (String.ofList (Text.trim line.toList)) = c.enter line := by
    simp only [Calculator.enter, enter_trim]
  simp only [respond, looks_like_command, h, htrim]
  cases (c.enter line).1.message <;> rfl

/-! ## Whole sessions -/

variable (limits : Limits)

theorem calculator_after_command (earlier : List String) {line : String} (h : isCommand line = true) :
    calculatorAfter limits (earlier ++ [line]) = calculatorAfter limits earlier := by
  simp [calculatorAfter, List.filter_append, h]

theorem calculator_after_calculation (earlier : List String) {line : String} (h : isCommand line = false) :
    calculatorAfter limits (earlier ++ [line]) = ((calculatorAfter limits earlier).enter line).2 := by
  simp [calculatorAfter, List.filter_append, h, stateAfter]

/-- A line that does not stop the session writes what it shows after the lines before it,
    and leaves the calculator that the lines so far lead to. -/
theorem respond_shown (earlier : List String) {line : String} (h : isExit line = false) :
    respond (calculatorAfter limits earlier) line =
      ⟨written (shown limits earlier line), .more (calculatorAfter limits (earlier ++ [line]))⟩ := by
  by_cases hc : isCommand line = true
  · rw [respond_command hc h, calculator_after_command limits earlier hc, shown, if_pos hc]
  · rw [Bool.not_eq_true] at hc
    rw [respond_calculation hc, calculator_after_calculation limits earlier hc, shown, hc]
    rfl

theorem report_stop (earlier : List String) {line : Option String} (h : stops line = true)
    (lines : List (Option String)) : report limits earlier (line :: lines) = ending (some line) := by
  simp [report, h, conversation]

theorem report_more (earlier : List String) {line : String} (h : isExit line = false) (lines : List (Option String)) :
    report limits earlier (some line :: lines) =
      ⟨written (shown limits earlier line) ++ (report limits (earlier ++ [line]) lines).output,
        (report limits (earlier ++ [line]) lines).status⟩ := by
  simp [report, stops, h, conversation, String.append_assoc]

/-- A session that carries a calculator from line to line comes to what its lines do. -/
theorem serve_report (lines : List (Option String)) (earlier : List String) :
    serve (calculatorAfter limits earlier) lines = report limits earlier lines := by
  induction lines generalizing earlier with
  | nil => rfl
  | cons line lines ih =>
    cases line with
    | none => rw [report_stop limits earlier rfl]; rfl
    | some text =>
      by_cases he : isExit text = true
      · rw [report_stop limits earlier (show stops (some text) = true from he)]
        simp only [serve, reply, respond_exit he]
        rfl
      · rw [Bool.not_eq_true] at he
        rw [report_more limits earlier he, ← ih]
        simp only [serve, reply, respond_shown limits earlier he]

/-! ## What changes nothing -/

theorem enter_blank {line : String} (h : isBlankLine line = true) (c : Calculator) : (c.enter line).2 = c := by
  have hblank : Line.ofString line = .ok .blank := of_string_blank_iff.mpr (List.isEmpty_iff.mp h)
  simp only [Calculator.enter, Reckon.enter, hblank]

/-- Commands and blank lines change nothing for the lines after them. -/
theorem shown_filter (earlier : List String) (line : String) :
    shown limits (earlier.filter fun l => !isCommand l && !isBlankLine l) line = shown limits earlier line := by
  have hlines : (earlier.filter fun l => !isCommand l && !isBlankLine l).filter (!isCommand ·) =
      (earlier.filter (!isCommand ·)).filter (!isBlankLine ·) := by
    rw [List.filter_filter, List.filter_filter]
    refine List.filter_congr fun l _ => ?_
    cases isCommand l <;> simp
  have hafter : calculatorAfter limits (earlier.filter fun l => !isCommand l && !isBlankLine l) =
      calculatorAfter limits earlier := by
    rw [calculatorAfter, hlines]
    exact state_after_filter (fun c line hline => enter_blank (by simpa using hline) c) _ _
  rw [shown, shown, hafter]

/-- Nothing counts after a line that stops the session. -/
theorem report_after_stop (earlier : List String) {line : Option String} (h : stops line = true)
    (before after after' : List (Option String)) :
    report limits earlier (before ++ line :: after) = report limits earlier (before ++ line :: after') := by
  simp [report, h, List.takeWhile_append, List.find?_append]

/-! ## The program -/

namespace Options

theorem limit_text (limit : UInt64) : limit? (Text.Decimal.text limit.toNat) = some limit := by
  have hdigits : (Text.Decimal.text limit.toNat).toList = Text.Decimal.digits limit.toNat := String.toList_ofList
  unfold limit?
  rw [hdigits]
  split
  · rename_i cs hcs
    have h := Text.Decimal.is_natural_digits limit.toNat
    rw [hcs] at h
    simp [Text.Decimal.isNatural] at h
  · simp only [Text.Decimal.natural_digits]
    rw [if_pos limit.toNat_lt, UInt64.ofNat_toNat]

theorem of_args_understands : Understands ofArgs? where
  limit limit := by simp [ofArgs?, limiting, read, limit_text]
  lines limit lines := by simp [ofArgs?, limiting, read, limit_text]

end Options

/-- With a parser of arguments that keeps to the conventions every limit can be set, and
    under arguments that set it and hold no lines, whatever bytes are on the standard input,
    the program comes to what the lines that they hold do. What a line shows depends on no
    command and no blank line before it, and nothing depends on what stands after the line
    that stops the session. -/
theorem session_of_input {parse : List String → Option Options} (hparse : Options.Understands parse) (limits : Limits) :
    parse (Options.limiting limits.maxPowerBits) = some ⟨limits, []⟩ ∧
      ∀ args, parse args = some ⟨limits, []⟩ →
        (∀ stdin, (∃! lines, Holds stdin lines) ∧
          ∀ lines, Holds stdin lines → sessionWith parse args stdin = report limits [] lines) ∧
        (∀ earlier line,
          shown limits (earlier.filter fun l => !isCommand l && !isBlankLine l) line = shown limits earlier line) ∧
        ∀ before line after after' stdin stdin', stops line = true → Holds stdin (before ++ line :: after) →
          Holds stdin' (before ++ line :: after') → sessionWith parse args stdin = sessionWith parse args stdin' := by
  refine ⟨hparse.limit limits.maxPowerBits, ?_⟩
  intro args hargs
  have hreport : ∀ stdin lines, Holds stdin lines → sessionWith parse args stdin = report limits [] lines := by
    intro stdin lines h
    obtain rfl := Text.Lines.holds_iff.mp h
    rw [sessionWith, hargs]
    exact serve_report limits (Text.Lines.ofBytes stdin) []
  refine ⟨fun stdin => ⟨Text.Lines.holds_once stdin, hreport stdin⟩, shown_filter limits, ?_⟩
  intro before line after after' stdin stdin' hstop h h'
  rw [hreport _ _ h, hreport _ _ h', report_after_stop limits [] hstop before after after']

/-- Three kinds of line endings, an unknown command, a blank line and a power that 16 bits
    may not hold, before bytes that are no text and end the session. -/
theorem session_of_input_unreadable :
    let args := ["--max-power-bits=16"]
    let before := [some " x = 3", some "/hlp", some "", some "x ^ 9", some "x"]
    let stdin := Text.Lines.encode " x = 3\r\n/hlp\n\nx ^ 9\nx\n" ++ [0xFF, 10] ++ Text.Lines.encode "/exit"
    let stdin' := Text.Lines.encode " x = 3\r\n/hlp\n\nx ^ 9\nx\n" ++ [0xFF, 10]
    Options.ofArgs? args = some ⟨⟨16⟩, []⟩ ∧ Holds stdin (before ++ none :: [some "/exit"]) ∧
      session args stdin = ⟨"Unknown command\nArithmetic overflow\n3\n", 1⟩ ∧
      session args stdin' = session args stdin := by
  intro args before stdin stdin'
  have hargs : Options.ofArgs? args = some ⟨⟨16⟩, []⟩ := by decide +kernel
  have hstdin : Holds stdin (before ++ none :: [some "/exit"]) := Text.Lines.holds_iff.mpr (by decide +kernel)
  have hstdin' : Holds stdin' (before ++ none :: []) := Text.Lines.holds_iff.mpr (by decide +kernel)
  obtain ⟨hreport, -, hstop⟩ := (session_of_input Options.of_args_understands ⟨16⟩).2 args hargs
  refine ⟨hargs, hstdin, ?_, hstop _ _ _ _ _ _ rfl hstdin' hstdin⟩
  rw [session, (hreport stdin).2 _ hstdin]
  decide +kernel

end Reckon.Console
