/-
  Reckon.Proofs.Text.Division — the lines that bytes are divided into.

  `Divides` says what the lines of some bytes are, without saying how they are found: each
  line but the last ends with a line feed, or with a carriage return and a line feed where
  these stand together, and the last one with nothing if any bytes are left. Any bytes are
  divided in exactly one way, and cutting them after every line feed finds it
  (`divides_iff`). So any bytes hold lines that are text or no text, in exactly one way
  (`holds_iff`).
-/

import Mathlib.Data.List.Forall2
import Mathlib.Logic.ExistsUnique
import Reckon.Proofs.Text.Encoding

namespace Reckon.Text.Lines

/-- The bytes are divided into the lines, which are given without their endings. -/
inductive Divides : List UInt8 → List (List UInt8) → Prop
  | nothing : Divides [] []
  /-- Bytes without a line feed are one line. -/
  | last {line : List UInt8} : line ≠ [] → lineFeed ∉ line → Divides line [line]
  | feed {line rest : List UInt8} {lines : List (List UInt8)} : lineFeed ∉ line →
      line.getLast? ≠ some carriageReturn → Divides rest lines → Divides (line ++ lineFeed :: rest) (line :: lines)
  | returnFeed {line rest : List UInt8} {lines : List (List UInt8)} : lineFeed ∉ line → Divides rest lines →
      Divides (line ++ carriageReturn :: lineFeed :: rest) (line :: lines)

/-! ## Cutting -/

theorem pieces_cons (b : UInt8) (bytes : List UInt8) : pieces (b :: bytes) = consByte b (pieces bytes) := rfl

theorem pieces_feed {line : List UInt8} (h : lineFeed ∉ line) (rest : List UInt8) :
    pieces (line ++ lineFeed :: rest) = (line ++ [lineFeed]) :: pieces rest := by
  induction line with
  | nil => rfl
  | cons b line ih =>
    obtain ⟨hb, hline⟩ := not_or.mp (fun hm => h (List.mem_cons.mpr hm))
    rw [List.cons_append, pieces_cons, ih hline, consByte, if_neg (Ne.symm hb)]
    rfl

theorem pieces_last {line : List UInt8} (hne : line ≠ []) (h : lineFeed ∉ line) : pieces line = [line] := by
  induction line with
  | nil => exact absurd rfl hne
  | cons b line ih =>
    obtain ⟨hb, hline⟩ := not_or.mp (fun hm => h (List.mem_cons.mpr hm))
    cases line with
    | nil => exact if_neg (Ne.symm hb)
    | cons c line => rw [pieces_cons, ih (List.cons_ne_nil c line) hline, consByte, if_neg (Ne.symm hb)]

theorem content_last {line : List UInt8} (h : lineFeed ∉ line) : content line = line := by
  unfold content
  split
  · rename_i b rest hr
    have hb : b ∈ line := List.mem_reverse.mp (hr ▸ List.mem_cons_self)
    have hne : b ≠ lineFeed := fun he => h (he ▸ hb)
    rw [if_neg hne]
  · rename_i hr
    exact (List.reverse_eq_nil_iff.mp hr).symm

theorem content_feed {line : List UInt8} (h : line.getLast? ≠ some carriageReturn) :
    content (line ++ [lineFeed]) = line := by
  rcases List.eq_nil_or_concat line with rfl | ⟨init, b, rfl⟩
  · rfl
  · have hb : b ≠ carriageReturn := by simpa using h
    simp [content, hb]

@[simp] theorem content_return_feed (line : List UInt8) : content (line ++ carriageReturn :: [lineFeed]) = line := by
  simp [content]

/-! ## One division -/

theorem exists_divides (bytes : List UInt8) : ∃ lines, Divides bytes lines := by
  induction hn : bytes.length using Nat.strongRecOn generalizing bytes with
  | _ n ih =>
    subst hn
    by_cases hmem : lineFeed ∈ bytes
    · obtain ⟨line, rest, rfl, hline⟩ := List.eq_append_cons_of_mem hmem
      obtain ⟨lines, hrest⟩ := ih rest.length (by simp; omega) rest rfl
      by_cases hreturn : line.getLast? = some carriageReturn
      · obtain ⟨init, rfl⟩ := List.getLast?_eq_some_iff.mp hreturn
        refine ⟨init :: lines, ?_⟩
        rw [List.append_assoc]
        exact .returnFeed (fun hm => hline (List.mem_append_left _ hm)) hrest
      · exact ⟨line :: lines, .feed hline hreturn hrest⟩
    · by_cases hne : bytes = []
      · exact ⟨[], hne ▸ .nothing⟩
      · exact ⟨[bytes], .last hne hmem⟩

/-- However bytes are divided, cutting them after every line feed finds the lines. -/
theorem eq_of_divides {bytes : List UInt8} {lines : List (List UInt8)} (h : Divides bytes lines) :
    lines = (pieces bytes).map content := by
  induction h with
  | nothing => rfl
  | last hne h => rw [pieces_last hne h, List.map_singleton, content_last h]
  | feed h hreturn _ ih => rw [pieces_feed h, List.map_cons, content_feed hreturn, ih]
  | @returnFeed line rest lines h _ ih =>
    have hline : lineFeed ∉ line ++ [carriageReturn] := by
      simpa [h] using (by decide : lineFeed ≠ carriageReturn)
    have hcut := pieces_feed hline rest
    rw [List.append_assoc, List.append_assoc] at hcut
    rw [show line ++ carriageReturn :: lineFeed :: rest = line ++ ([carriageReturn] ++ lineFeed :: rest) from rfl,
      hcut, List.map_cons, ih]
    exact congrArg (· :: _) (content_return_feed line).symm

/-- Cutting the bytes after every line feed divides them, and nothing else does. -/
theorem divides_iff {bytes : List UInt8} {lines : List (List UInt8)} :
    Divides bytes lines ↔ lines = (pieces bytes).map content := by
  refine ⟨eq_of_divides, ?_⟩
  rintro rfl
  obtain ⟨lines, h⟩ := exists_divides bytes
  exact eq_of_divides h ▸ h

/-- The lines that bytes hold, `none` for one that is no text. -/
def Holds (bytes : List UInt8) (texts : List (Option String)) : Prop :=
  ∃ lines, Divides bytes lines ∧ List.Forall₂ Reads lines texts

theorem forall_reads_iff {lines : List (List UInt8)} {texts : List (Option String)} :
    List.Forall₂ Reads lines texts ↔ lines.map decode = texts := by
  have h : Reads = fun bytes text => decode bytes = text := funext fun _ => funext fun _ => propext reads_iff
  rw [h, ← List.forall₂_map_left_iff, List.forall₂_eq_eq_eq]

theorem holds_iff {bytes : List UInt8} {texts : List (Option String)} : Holds bytes texts ↔ ofBytes bytes = texts := by
  simp only [Holds, divides_iff, exists_eq_left, forall_reads_iff, List.map_map]
  rfl

theorem holds_once (bytes : List UInt8) : ∃! texts, Holds bytes texts :=
  ⟨ofBytes bytes, holds_iff.mpr rfl, fun _ h => (holds_iff.mp h).symm⟩

end Reckon.Text.Lines
