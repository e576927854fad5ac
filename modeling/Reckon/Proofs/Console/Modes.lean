/-
  Reckon.Proofs.Console.Modes — the same lines as arguments and on the standard input.

  Lines that follow `--` are taken as they stand, whatever they begin with. On the standard
  input, each ended by a line feed, they are cut apart again and lose a carriage return at
  their ends (`holds_encoded`). Blanks at the ends of a line do not count
  (`respond_alike`), and a carriage return is one. So both sessions come to the same
  (`session_of_arguments`).
-/

import Reckon.Proofs.Console.Conversation

namespace Reckon.Console

open Text.Lines (Holds encode lineFeed carriageReturn Divides Reads)

/-- The bytes of some lines, each ended by a line feed. -/
def encodeLines (lines : List String) : List UInt8 := lines.flatMap fun line => encode line ++ [lineFeed]

/-- The lines differ in blanks at their ends only. -/
def Alike (a b : String) : Prop := Text.trim a.toList = Text.trim b.toList

/-- A line is read back from its bytes, except that it may lose a blank at its end. -/
theorem divides_encoded {line : String} (hline : '\n' ∉ line.toList) {rest : List UInt8}
    {lines : List (List UInt8)} (hrest : Divides rest lines) :
    ∃ read, Alike line read ∧ Divides (encode line ++ [lineFeed] ++ rest) (encode read :: lines) := by
  have hfeed : lineFeed ∉ encode line := fun h => hline ((Text.Lines.line_feed_mem_encode line).mp h)
  by_cases hreturn : line.toList.getLast? = some '\r'
  · obtain ⟨init, hinit⟩ := List.getLast?_eq_some_iff.mp hreturn
    have hencode : encode line = encode (String.ofList init) ++ [carriageReturn] := by
      rw [← Text.Lines.encode_return, ← hinit, String.ofList_toList]
    refine ⟨String.ofList init, ?_, ?_⟩
    · have hblank : ∀ c ∈ ['\r'], Text.isBlank c = true := by simp [Text.isBlank]
      have hnone : ∀ c ∈ ([] : List Char), Text.isBlank c = true := by simp
      rw [Alike, hinit, String.toList_ofList]
      exact Text.trim_blanks hnone hblank init
    · rw [hencode] at hfeed ⊢
      have hinitFeed : lineFeed ∉ encode (String.ofList init) := fun h => hfeed (List.mem_append_left _ h)
      simpa using Divides.returnFeed hinitFeed hrest
  · refine ⟨line, rfl, ?_⟩
    simpa using Divides.feed hfeed (Text.Lines.last_encode hreturn) hrest

theorem holds_encoded {lines : List String} (hlines : ∀ line ∈ lines, '\n' ∉ line.toList) :
    ∃ read, List.Forall₂ Alike lines read ∧ Holds (encodeLines lines) (read.map some) := by
  induction lines with
  | nil => exact ⟨[], .nil, [], .nothing, .nil⟩
  | cons line lines ih =>
    obtain ⟨read, halike, cut, hdivides, hreads⟩ := ih fun l hl => hlines l (List.mem_cons_of_mem line hl)
    obtain ⟨first, hfirst, hcut⟩ := divides_encoded (hlines line List.mem_cons_self) hdivides
    exact ⟨first :: read, .cons hfirst halike, encode first :: cut, hcut, .cons rfl hreads⟩

/-! ## Blanks at the ends of lines -/

theorem respond_alike {a b : String} (h : Alike a b) (c : Calculator) : respond c a = respond c b := by
  unfold respond
  rw [h]

theorem serve_alike {as bs : List String} (h : List.Forall₂ Alike as bs) (c : Calculator) :
    serve c (as.map some) = serve c (bs.map some) := by
  induction h generalizing c with
  | nil => rfl
  | cons hab _ ih =>
    simp only [List.map_cons, serve, reply, respond_alike hab, ih]

/-- No session over lines of text fails. -/
theorem report_texts (limits : Limits) (lines : List String) : (report limits [] (lines.map some)).status = 0 := by
  rw [report]
  cases h : (lines.map some).find? stops with
  | none => rfl
  | some line =>
    obtain ⟨text, -, rfl⟩ := List.mem_map.mp (List.mem_of_find?_eq_some h)
    rfl

/-- The same lines, given as arguments after `--` or on the standard input, make the
    program write the same and end with the same status, which tells of no failure. -/
theorem session_of_arguments {parse : List String → Option Options} (hparse : Options.Understands parse)
    (limit : UInt64) {lines : List String} (hne : lines ≠ []) (hlines : ∀ line ∈ lines, '\n' ∉ line.toList)
    (stdin : List UInt8) :
    sessionWith parse (Options.limiting limit ++ "--" :: lines) stdin =
        sessionWith parse (Options.limiting limit) (encodeLines lines) ∧
      (sessionWith parse (Options.limiting limit ++ "--" :: lines) stdin).status = 0 := by
  obtain ⟨read, halike, hholds⟩ := holds_encoded hlines
  have hargs : sessionWith parse (Options.limiting limit ++ "--" :: lines) stdin =
      serve ⟨⟨limit⟩, .empty⟩ (lines.map some) := by
    simp [sessionWith, hparse.lines, hne]
  have hinput : sessionWith parse (Options.limiting limit) (encodeLines lines) =
      serve ⟨⟨limit⟩, .empty⟩ (read.map some) := by
    simp [sessionWith, hparse.limit, Text.Lines.holds_iff.mp hholds]
  refine ⟨hargs.trans ((serve_alike halike _).trans hinput.symm), ?_⟩
  rw [hargs]
  exact (congrArg Report.status (serve_report ⟨limit⟩ (lines.map some) [])).trans (report_texts ⟨limit⟩ lines)

/-- Leading dashes, a second `--`, a carriage return, a blank line, commands, and a line
    after `/exit`. -/
theorem session_of_arguments_dashes :
    let lines := ["-2 ^ 2", "--", "", " x = 7\r", "x ^ 9", "/help me", "/exit ", "x"]
    let arguments := session (Options.limiting 16 ++ "--" :: lines) []
    arguments = session (Options.limiting 16) (encodeLines lines) ∧
      arguments.output = "4\nInvalid expression\nArithmetic overflow\nUnknown command\nBye!\n" := by
  intro lines arguments
  have hlines : ∀ line ∈ lines, '\n' ∉ line.toList := by decide +kernel
  exact ⟨(session_of_arguments Options.of_args_understands 16 (List.cons_ne_nil _ _) hlines []).1, by decide +kernel⟩

end Reckon.Console
