/-
  Reckon.Proofs.Line.Layout — how a line is laid out makes no difference.

  Two texts with tokens of the same kinds differ in their gaps, in the blanks at their
  ends and in the leading zeros of their numbers. No check tells them apart as long as
  no name touches a number in either (`kinds_of_layout`): the operators at the ends, the
  neighbours and the parentheses are those of the tokens. So they come to the same when
  they are entered as lines (`enter_layout`), blank ones included.
-/

import Reckon.Proofs.Token.Ends

namespace Reckon

open Token.Lexer (tokens trim_eq_nil_iff tokens_trim)

/-! ## The checks -/

theorem any_clash_layout {as bs : List Token} (hk : as.map (·.kind) = bs.map (·.kind)) (ha : Spaced as)
    (hb : Spaced bs) : Line.anyClash as = Line.anyClash bs := by
  have one : ∀ {as bs : List Token}, as.map (·.kind) = bs.map (·.kind) → Spaced bs →
      Line.anyClash as = false → Line.anyClash bs = false := by
    intro as bs hk hb h
    exact no_clash_of_apart hb (hk ▸ apart_of_no_clash h)
  cases h : Line.anyClash as with
  | false => exact (one hk hb h).symm
  | true =>
    cases h' : Line.anyClash bs with
    | true => rfl
    | false =>
      rw [one hk.symm ha h'] at h
      cases h

theorem passing_layout {as bs : List Token} (hk : as.map (·.kind) = bs.map (·.kind)) (ha : Spaced as)
    (hb : Spaced bs) : passing as = passing bs := by
  rw [passing_eq, passing_eq, any_clash_layout hk ha hb, hk]

/-- Moving tokens together keeps the space between them. -/
theorem spaced_shift {k : Nat} {ts : List Token} (h : Spaced (ts.map (Token.Lexer.shiftToken k))) : Spaced ts := by
  rw [Spaced, List.isChain_map] at h
  refine h.imp ?_
  intro x y hxy hn htouch
  refine hxy hn ?_
  simp only [Token.Lexer.shiftToken, Token.stop] at htouch ⊢
  omega

theorem kinds_of_layout {a b : List Char} {as bs : List Token} (ha : tokens ⟨a, 0⟩ = .ok as)
    (hb : tokens ⟨b, 0⟩ = .ok bs) (hk : as.map (·.kind) = bs.map (·.kind)) (has : Spaced as) (hbs : Spaced bs) :
    kindsOf (Text.trim a) = kindsOf (Text.trim b) := by
  obtain ⟨k, us, hu, rfl⟩ := tokens_trim ha
  obtain ⟨l, vs, hv, rfl⟩ := tokens_trim hb
  have hkinds : us.map (·.kind) = vs.map (·.kind) := by
    rw [List.map_map, List.map_map] at hk
    exact hk
  rw [kinds_of_trimmed hu (Text.trimmed_trim a), kinds_of_trimmed hv (Text.trimmed_trim b), hkinds,
    passing_layout hkinds (spaced_shift has) (spaced_shift hbs)]

/-! ## Lines -/

/-- Lines without an `=` that read as tokens of the same kinds come to the same, if no
    name touches a number in either. -/
theorem enter_layout (limits : Limits) (vars : Variables) {a b : String} {as bs : List Token}
    (hea : '=' ∉ a.toList) (heb : '=' ∉ b.toList) (ha : (Token.Lexer.ofString a).tokens = .ok as)
    (hb : (Token.Lexer.ofString b).tokens = .ok bs) (hk : as.map (·.kind) = bs.map (·.kind)) (has : Spaced as)
    (hbs : Spaced bs) : enter limits vars a = enter limits vars b := by
  have hblank : Text.trim a.toList = [] ↔ Text.trim b.toList = [] := by
    rw [trim_eq_nil_iff ha, trim_eq_nil_iff hb, ← List.map_eq_nil_iff (f := Token.kind), hk, List.map_eq_nil_iff]
  by_cases hn : Text.trim a.toList = []
  · have quiet : ∀ line : String, Text.trim line.toList = [] → enter limits vars line = (.quiet, vars) := by
      intro line h
      have hl : Line.ofString line = .ok .blank := by simp [Line.ofString, h]
      rw [enter, hl]
    rw [quiet a hn, quiet b (hblank.mp hn)]
  · have hxa : IsExpression a := ⟨hn, fun h => hea (Text.mem_of_mem_trim h)⟩
    have hxb : IsExpression b := ⟨fun h => hn (hblank.mpr h), fun h => heb (Text.mem_of_mem_trim h)⟩
    rw [enter_expression hxa, enter_expression hxb, compute_expression hxa, compute_expression hxb,
      kinds_of_layout ha hb hk has hbs]

/-- Gaps between the tokens, blanks around the line and leading zeros, beside two signs
    in a row. -/
theorem enter_layout_zeros :
    let vars := Variables.empty.insert "x" 3
    enter {} vars "2*-(x+007)" = (.value (-20), vars) ∧
      enter {} vars "2*-(x+007)" = enter {} vars " 2 *\t- ( x\n+ 7 ) " := by
  intro vars
  let as : List Token := [⟨.num 2, 0, 1⟩, ⟨.op .mul, 1, 1⟩, ⟨.op .sub, 2, 1⟩, ⟨.opening, 3, 1⟩, ⟨.ident "x", 4, 1⟩,
    ⟨.op .add, 5, 1⟩, ⟨.num 7, 6, 3⟩, ⟨.closing, 9, 1⟩]
  let bs : List Token := [⟨.num 2, 1, 1⟩, ⟨.op .mul, 3, 1⟩, ⟨.op .sub, 5, 1⟩, ⟨.opening, 7, 1⟩, ⟨.ident "x", 9, 1⟩,
    ⟨.op .add, 11, 1⟩, ⟨.num 7, 13, 1⟩, ⟨.closing, 15, 1⟩]
  have ha : (Token.Lexer.ofString "2*-(x+007)").tokens = .ok as := eq_ok_of_to_option (by decide +kernel)
  have hb : (Token.Lexer.ofString " 2 *\t- ( x\n+ 7 ) ").tokens = .ok bs := eq_ok_of_to_option (by decide +kernel)
  refine ⟨by decide +kernel, ?_⟩
  exact enter_layout {} vars (by decide) (by decide) ha hb rfl (by simp [as, Spaced, nameAndNumber])
    (by simp [bs, Spaced, nameAndNumber])

end Reckon
