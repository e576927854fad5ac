/-
  Reckon.Proofs.Token.Printing — tokens that were printed are read back.

  Tokens are printed one after the other: each as the word that spells it, a number in
  decimal and with zeros before it at will, after any gaps (`Piece`). There has to be a
  gap only between two numbers and between two names. A text printed so is laid out as
  these tokens (`laid_print`), and so it is read as these tokens, each where it was
  printed (`tokens_print`).
-/

import Mathlib.Data.List.Chain
import Reckon.Proofs.Token.Tiling

namespace Reckon.Token

open String (utf8Len)
open Text (Letters)
open Text.Decimal (Digits digits worth)

/-- A token to be printed, and how. -/
structure Piece where
  /-- What comes before the token. -/
  gap : List Char
  /-- How many zeros come before the digits of a number. -/
  zeros : Nat
  kind : Kind
  gap_gaps : ∀ c ∈ gap, isGap c = true
  name_letters : ∀ name, kind = .ident name → Letters name.toList

namespace Piece

/-- The word that is printed for the token. -/
def word (p : Piece) : List Char :=
  match p.kind with
  | .num n => List.replicate p.zeros '0' ++ digits n
  | .ident name => name.toList
  | .op o => [o.symbol]
  | .opening => ['(']
  | .closing => [')']
  | .equals => ['=']

theorem worth_zeros (zeros : Nat) (ds : List Char) : worth (List.replicate zeros '0' ++ ds) = worth ds := by
  induction zeros with
  | zero => rfl
  | succ zeros ih =>
    rw [List.replicate_succ, List.cons_append, worth, ih]
    simp

theorem digits_zeros (zeros n : Nat) : Digits (List.replicate zeros '0' ++ digits n) := by
  obtain ⟨hne, hdigits⟩ := Text.Decimal.is_natural_iff.mp (Text.Decimal.is_natural_digits n)
  refine ⟨by simp [hne], ?_⟩
  intro c hc
  rcases List.mem_append.mp hc with hc | hc
  · rw [List.eq_of_mem_replicate hc]
    rfl
  · exact hdigits c hc

theorem spells_word (p : Piece) : Spells p.word p.kind := by
  cases hk : p.kind with
  | num n =>
    have h := Spells.number (digits_zeros p.zeros n)
    rw [worth_zeros, ← Text.Decimal.value_eq_worth, Text.Decimal.value_digits] at h
    simpa only [word, hk] using h
  | ident name =>
    have h := Spells.name (p.name_letters name hk)
    rw [String.ofList_toList] at h
    simpa only [word, hk] using h
  | op o => simpa only [word, hk] using Spells.op o
  | opening => simpa only [word, hk] using Spells.opening
  | closing => simpa only [word, hk] using Spells.closing
  | equals => simpa only [word, hk] using Spells.equals

/-- There is a gap between the pieces where they need one. -/
def Parted (p q : Piece) : Prop := sameSort p.kind q.kind = true → q.gap ≠ []

/-- The text of some pieces. -/
def print (ps : List Piece) : List Char := ps.flatMap fun p => p.gap ++ p.word

/-- The tokens of some pieces that are printed from the place given on. -/
def tokensFrom (pos : Nat) : List Piece → List Token
  | [] => []
  | p :: ps => ⟨p.kind, pos + p.gap.length, p.word.length⟩ :: tokensFrom (pos + p.gap.length + p.word.length) ps

@[simp] theorem print_cons (p : Piece) (ps : List Piece) : print (p :: ps) = p.gap ++ (p.word ++ print ps) := by
  rw [print, List.flatMap_cons, List.append_assoc]
  rfl

@[simp] theorem print_append (ps qs : List Piece) : print (ps ++ qs) = print ps ++ print qs := List.flatMap_append

@[simp] theorem map_kind_tokens_from (pos : Nat) (ps : List Piece) :
    (tokensFrom pos ps).map (·.kind) = ps.map (·.kind) := by
  induction ps generalizing pos with
  | nil => rfl
  | cons p ps ih => rw [tokensFrom, List.map_cons, List.map_cons, ih]

theorem get_tokens_from (pos : Nat) (before : List Piece) (p : Piece) (after : List Piece) :
    (tokensFrom pos (before ++ p :: after))[before.length]? =
      some ⟨p.kind, pos + (print before ++ p.gap).length, p.word.length⟩ := by
  induction before generalizing pos with
  | nil => rfl
  | cons q before ih =>
    rw [List.cons_append, tokensFrom, List.length_cons, List.getElem?_cons_succ, ih, print_cons]
    simp only [List.length_append, Nat.add_assoc]

/-! ## Reading -/

open Lexer (Joins Laid)

theorem not_joins_print {p : Piece} {ps : List Piece} {after : List Char} (hp : ∀ q ∈ ps.head?, p.Parted q)
    (hafter : ∀ c ∈ after, isGap c = true) : ¬Joins p.word (print ps ++ after) := by
  cases ps with
  | nil => exact Lexer.not_joins_gaps hafter p.word
  | cons q ps =>
    rw [print_cons, List.append_assoc]
    cases hg : q.gap with
    | cons c g =>
      -- a gap parts the words
      have hc : isGap c = true := q.gap_gaps c (by simp [hg])
      have hgap : ¬Joins p.word [c] := Lexer.not_joins_gaps (by simpa using hc) p.word
      rintro ⟨x, hx, y, hy, hxy⟩
      exact hgap ⟨x, hx, y, hy, hxy⟩
    | nil =>
      rw [List.nil_append, List.append_assoc, Lexer.joins_iff_same_sort p.spells_word q.spells_word]
      exact fun hsort => hp q rfl hsort hg

theorem laid_print {ps : List Piece} (hps : ps.IsChain Parted) {after : List Char}
    (hafter : ∀ c ∈ after, isGap c = true) (pos : Nat) : Laid pos (print ps ++ after) (tokensFrom pos ps) := by
  induction ps generalizing pos with
  | nil => exact .done pos hafter
  | cons p ps ih =>
    obtain ⟨hp, hps⟩ := List.isChain_cons.mp hps
    rw [print_cons, List.append_assoc, List.append_assoc]
    exact .token p.gap_gaps p.spells_word (not_joins_print hp hafter) (ih hps _)

/-- A text that tokens were printed as, with gaps in it at will but between two numbers
    and between two names, is read as these tokens, each at the byte where it was printed
    and as long as it was printed. -/
theorem tokens_print {ps : List Piece} (hps : ps.IsChain Parted) {after : List Char}
    (hafter : ∀ c ∈ after, isGap c = true) :
    ∃ ts, (Lexer.ofString (String.ofList (print ps ++ after))).tokens = .ok ts ∧
      ts.map (·.kind) = ps.map (·.kind) ∧
      ∀ before p rest, ps = before ++ p :: rest →
        ts[before.length]? = some ⟨p.kind, utf8Len (print before ++ p.gap), utf8Len p.word⟩ := by
  have htokens := (laid_print hps hafter 0).tokens
  refine ⟨tokensFrom 0 ps, ?_, map_kind_tokens_from 0 ps, ?_⟩
  · rwa [Lexer.ofString, String.toList_ofList]
  · rintro before p rest rfl
    have hreadable : ∀ c ∈ print before ++ p.gap ++ p.word, Readable c := by
      intro c hc
      refine readable_iff.mpr (Lexer.known_of_tokens htokens c ?_)
      rw [print_append, print_cons]
      simp only [List.mem_append] at hc ⊢
      rcases hc with (hc | hc) | hc <;> simp [hc]
    obtain ⟨hbefore, hword⟩ := List.forall_mem_append.mp hreadable
    rw [get_tokens_from, Nat.zero_add, utf8_len_of_readable hbefore, utf8_len_of_readable hword]

/-- A number that touches a name, which is parted from another by a tab, and zeros. -/
theorem tokens_print_touching :
    let ps : List Piece := [⟨[], 2, .num 7, by simp, by simp⟩, ⟨[], 0, .ident "ab", by simp, by simp [Letters]⟩,
      ⟨['\t'], 0, .ident "c", by simp [isGap], by simp [Letters]⟩, ⟨[], 0, .op .sub, by simp, by simp⟩,
      ⟨[' '], 1, .num 0, by simp [isGap], by simp⟩]
    ps.IsChain Parted ∧ String.ofList (print ps ++ ['\n']) = "007ab\tc- 00\n" ∧
      ∃ ts, (Lexer.ofString "007ab\tc- 00\n").tokens = .ok ts ∧
        ts.map (·.kind) = [.num 7, .ident "ab", .ident "c", .op .sub, .num 0] ∧
        ts[2]? = some ⟨.ident "c", 6, 1⟩ ∧ ts[4]? = some ⟨.num 0, 9, 2⟩ := by
  intro ps
  have hps : ps.IsChain Parted := by simp [ps, Parted, sameSort]
  have htext : String.ofList (print ps ++ ['\n']) = "007ab\tc- 00\n" := by decide +kernel
  have hafter : ∀ c ∈ ['\n'], isGap c = true := by simp [isGap]
  obtain ⟨ts, hts, hkinds, hplaces⟩ := tokens_print hps hafter
  rw [htext] at hts
  exact ⟨hps, htext, ts, hts, hkinds, hplaces (ps.take 2) _ _ rfl, hplaces (ps.take 4) _ _ rfl⟩

end Piece

end Reckon.Token
