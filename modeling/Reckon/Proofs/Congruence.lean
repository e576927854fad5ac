/-
  Reckon.Proofs.Congruence — a group counts for its value and for nothing else.

  Around a group stands any text at all. At each stage what stands around it comes to the
  same whatever expression is in it: the tokens before and after it (`kinds_of_group`), the
  symbols (`settle_context`), the code (`to_code_context`), and what the line comes to
  (`enter_context`), which is a function of the value of the group.

  So groups of one value can be exchanged in any line (`enter_group_congr`).
-/

import Reckon.Proofs.Formula.Execution
import Reckon.Proofs.Formula.Parentheses
import Reckon.Proofs.Line.Assignment
import Reckon.Proofs.Line.Numeral

namespace Reckon

open Token (Kind)

variable (limits : Limits) (vars : Variables)

/-! ## Formulas -/

theorem value_context (a b : List Formula.Symbol) :
    ∃ outcome : Int → Except Fault Int, ∀ g v, Formula.value limits g = .ok v →
      Formula.value limits (a ++ .opening :: (g ++ .closing :: b)) = outcome v := by
  obtain ⟨before, after, hs⟩ := Formula.settle_context a b
  obtain ⟨context, hc⟩ := Formula.Conversion.to_code_context before after
  refine ⟨fun v => context.bind fun c => Formula.run limits (c.1 ++ [.push v] ++ c.2), ?_⟩
  intro g v hv
  obtain ⟨code, hg, hr⟩ := Formula.code_of_value limits hv
  rw [Formula.value, hs g (Formula.balanced_of_value hv), hc _ code hg]
  cases context with
  | error f => rfl
  | ok c => exact Formula.run_context hr c.1 c.2

theorem compute_kinds_context (a b : List Kind) :
    ∃ outcome : Int → Except Fault Int, ∀ ks v, computeKinds limits vars ks = .ok v →
      computeKinds limits vars (a ++ .opening :: (ks ++ .closing :: b)) = outcome v := by
  have split : ∀ ks, symbolsOf vars (a ++ .opening :: (ks ++ .closing :: b)) = (symbolsOf vars a).bind fun xs =>
      (symbolsOf vars ks).bind fun g => (symbolsOf vars b).map fun ys => xs ++ .opening :: (g ++ .closing :: ys) := by
    intro ks
    rw [symbols_of_append, show Kind.opening :: (ks ++ .closing :: b) = [.opening] ++ (ks ++ ([.closing] ++ b)) by simp,
      symbols_of_append, symbols_of_append, symbols_of_append]
    cases symbolsOf vars a with
    | error f => rfl
    | ok xs =>
      cases symbolsOf vars ks with
      | error f => rfl
      | ok g => cases symbolsOf vars b <;> rfl
  cases ha : symbolsOf vars a with
  | error f =>
    refine ⟨fun _ => .error f, ?_⟩
    intro ks v _
    rw [computeKinds, split, ha]
    rfl
  | ok xs =>
    cases hb : symbolsOf vars b with
    | error f =>
      -- A group with a value has symbols: the fault is that of what stands after it.
      refine ⟨fun _ => .error f, ?_⟩
      intro ks v h
      obtain ⟨g, hg, -⟩ := (compute_kinds_eq_ok_iff limits vars).mp h
      rw [computeKinds, split, ha, hb, hg]
      rfl
    | ok ys =>
      obtain ⟨outcome, ho⟩ := value_context limits xs ys
      refine ⟨outcome, ?_⟩
      intro ks v h
      obtain ⟨g, hg, hv⟩ := (compute_kinds_eq_ok_iff limits vars).mp h
      rw [computeKinds, split, ha, hb, hg]
      exact ho g v hv

/-! ## Expressions -/

/-- The tokens of a text with a group in it, the group having tokens `ts` of its own. -/
theorem tokens_group {e : List Char} {ts : List Token} (he : Token.Lexer.tokens ⟨e, 0⟩ = .ok ts) (p s : List Char) :
    Token.Lexer.tokens ⟨p ++ '(' :: (e ++ ')' :: s), 0⟩ = (Token.Lexer.tokens ⟨p, 0⟩).bind fun before =>
      (Token.Lexer.shiftRead (p.length + 1 + e.length + 1) (Token.Lexer.tokens ⟨s, 0⟩)).map fun after =>
        before ++ ⟨.opening, p.length, 1⟩ :: (ts.map (Token.Lexer.shiftToken (p.length + 1)) ++
          ⟨.closing, p.length + 1 + e.length, 1⟩ :: after) := by
  have hopen : Kind.ofChar? '(' = some .opening := rfl
  have hclose : Kind.ofChar? ')' = some .closing := rfl
  have hgroup : Token.Lexer.tokens ⟨e, 0 + (p.length + 1)⟩ = .ok (ts.map (Token.Lexer.shiftToken (p.length + 1))) := by
    rw [Token.Lexer.tokens_shift, he]
    rfl
  have hrest : Token.Lexer.tokens ⟨s, 0 + (p.length + 1 + e.length + 1)⟩ = _ := Token.Lexer.tokens_shift s 0 _
  rw [Nat.zero_add] at hgroup hrest
  rw [Token.Lexer.tokens_append (Token.Lexer.not_joins_symbol hopen p _), Nat.zero_add,
    Token.Lexer.tokens_symbol hopen, Token.Lexer.tokens_append (Token.Lexer.not_joins_symbol hclose e s), hgroup,
    Token.Lexer.tokens_symbol hclose, hrest]
  cases Token.Lexer.tokens ⟨p, 0⟩ with
  | error f => rfl
  | ok before => cases Token.Lexer.shiftRead (p.length + 1 + e.length + 1) (Token.Lexer.tokens ⟨s, 0⟩) <;> rfl

theorem dangles_group (p e s : List Char) :
    danglesAtEnds (p ++ '(' :: (e ++ ')' :: s)) = danglesAtEnds (p ++ '(' :: ')' :: s) := by
  have hl : (p ++ '(' :: (e ++ ')' :: s)).getLast? = (p ++ '(' :: ')' :: s).getLast? := by
    simp [List.getLast?_append, List.getLast?_cons]
  have hh : (p ++ '(' :: (e ++ ')' :: s)).head? = (p ++ '(' :: ')' :: s).head? := by
    cases p <;> rfl
  rw [danglesAtEnds, danglesAtEnds, hl, hh]

/-- The tokens before and after a group, if there is nothing wrong with them. -/
def passingAround (before after : List Token) : Except Fault (List Kind × List Kind) :=
  if Line.anyClash before || Line.anyClash after then .error .invalidIdentifier
  else if before.countP (·.kind = .opening) + after.countP (·.kind = .opening) ≠
      before.countP (·.kind = .closing) + after.countP (·.kind = .closing) then .error .invalidExpression
  else .ok (before.map (·.kind), after.map (·.kind))

theorem passing_group {ts : List Token} {ks : List Kind} (h : passing ts = .ok ks) {l r : Token}
    (hl : l.kind = .opening) (hr : r.kind = .closing) (before after : List Token) :
    passing (before ++ l :: (ts ++ r :: after)) =
      (passingAround before after).map fun c => c.1 ++ .opening :: (ks ++ .closing :: c.2) := by
  obtain ⟨hc, hn, rfl⟩ := passing_eq_ok_iff.mp h
  have hclash : Line.anyClash (before ++ l :: (ts ++ r :: after)) = (Line.anyClash before || Line.anyClash after) := by
    rw [any_clash_split (Or.inl hl), any_clash_split (Or.inr (Or.inl hr)), hc, Bool.false_or]
  have hcount : (before ++ l :: (ts ++ r :: after)).countP (·.kind = .opening) ≠
        (before ++ l :: (ts ++ r :: after)).countP (·.kind = .closing) ↔
      before.countP (·.kind = .opening) + after.countP (·.kind = .opening) ≠
        before.countP (·.kind = .closing) + after.countP (·.kind = .closing) := by
    simp only [List.countP_append, List.countP_cons, hl, hr]
    simp
    omega
  unfold passing passingAround
  rw [hclash]
  split
  · rfl
  · simp only [hcount]
    split
    · rfl
    · simp [Except.map, hl, hr]

/-- What a text around a group adds before and after it, or the fault found in the text. -/
def around (p s : List Char) : Except Fault (List Kind × List Kind) :=
  if danglesAtEnds (p ++ '(' :: ')' :: s) then .error .invalidExpression
  else match Token.Lexer.tokens ⟨p, 0⟩, Token.Lexer.tokens ⟨s, 0⟩ with
    | .ok before, .ok after => passingAround before after
    | _, _ => .error .invalidExpression

theorem passing_around_shift (k : Nat) (before after : List Token) :
    passingAround before (after.map (Token.Lexer.shiftToken k)) = passingAround before after := by
  simp only [passingAround, any_clash_shift, List.countP_map, List.map_map]
  rfl

/-- A text around a group makes the same tokens before and after it, or the same fault,
    whatever expression the group holds. -/
theorem kinds_of_group {e : List Char} {ks : List Kind} (h : kindsOf e = .ok ks) (p s : List Char) :
    kindsOf (p ++ '(' :: (e ++ ')' :: s)) = (around p s).map fun c => c.1 ++ .opening :: (ks ++ .closing :: c.2) := by
  obtain ⟨-, ts, ht, hts⟩ := kinds_of_eq_ok_iff.mp h
  rw [kinds_of_eq, dangles_group, Token.Lexer.ofList, tokens_group ht, around]
  split
  · rfl
  cases Token.Lexer.tokens ⟨p, 0⟩ with
  | error f => rfl
  | ok before =>
    cases Token.Lexer.tokens ⟨s, 0⟩ with
    | error f => rfl
    | ok after =>
      rw [← passing_shift (p.length + 1)] at hts
      have hgroup := passing_group hts rfl rfl before
        (after.map (Token.Lexer.shiftToken (p.length + 1 + e.length + 1)))
        (l := ⟨.opening, p.length, 1⟩) (r := ⟨.closing, p.length + 1 + e.length, 1⟩)
      rw [passing_around_shift] at hgroup
      exact hgroup

/-! ## Assignments -/

/-- A text with a parenthesis in it is no side of an assignment, and not what is nearly a
    name either. -/
theorem side_of_paren {cs : List Char} (h : '(' ∈ cs) : Text.isName (Text.trim cs) = false ∧
    Text.isMixedName (Text.trim cs) = false ∧ Text.Decimal.isSigned (Text.trim cs) = false := by
  have hm : '(' ∈ Text.trim cs := (Text.mem_trim_iff (by decide)).mpr h
  refine ⟨?_, ?_, ?_⟩
  · rw [Text.isName, Bool.and_eq_false_iff, List.all_eq_false]
    exact Or.inr ⟨_, hm, by decide⟩
  · rw [Text.isMixedName, Bool.and_assoc, Bool.and_eq_false_iff, List.all_eq_false]
    exact Or.inl ⟨_, hm, by decide⟩
  · cases hs : Text.Decimal.isSigned (Text.trim cs) with
    | false => rfl
    | true =>
      obtain ⟨v, hv⟩ := Text.Decimal.is_signed_iff.mp hs
      rcases hv.mem hm with h | h | h <;> exact absurd h (by decide)

/-- A line with an `=` outside of a group is refused, with the same fault whatever the
    group is. -/
theorem read_assignment_context {p s : List Char} (h : '=' ∈ p ∨ '=' ∈ s) :
    ∃ f, ∀ e : List Char, '=' ∉ e → Line.readAssignment (p ++ '(' :: (e ++ ')' :: s)) = .error f := by
  by_cases hp : '=' ∈ p
  · -- The group is on the right side, and what is on the left is in `p`.
    obtain ⟨a, b, rfl, ha⟩ := List.eq_append_cons_of_mem hp
    refine ⟨if '=' ∈ b ∨ '=' ∈ s then .invalidAssignment
      else if Text.isMixedName (Text.trim a) then .invalidIdentifier else .invalidAssignment, ?_⟩
    intro e he
    have hcs : a ++ '=' :: b ++ '(' :: (e ++ ')' :: s) = a ++ '=' :: (b ++ '(' :: (e ++ ')' :: s)) := by simp
    have hm : '(' ∈ b ++ '(' :: (e ++ ')' :: s) := by simp
    have hequals : '=' ∈ Text.trim (b ++ '(' :: (e ++ ')' :: s)) ↔ '=' ∈ b ∨ '=' ∈ s := by
      rw [Text.mem_trim_iff (by decide)]
      simp [he]
    obtain ⟨hname, -, hsigned⟩ := side_of_paren hm
    rw [hcs, read_assignment_sides ha]
    simp only [Line.ofSides, hequals, hname, hsigned, Bool.or_self, Bool.and_false]
    split
    · rfl
    · split <;> rfl
  · -- The group is on the left side.
    obtain ⟨a, b, rfl, ha⟩ := List.eq_append_cons_of_mem (h.resolve_left hp)
    refine ⟨.invalidAssignment, ?_⟩
    intro e he
    have hcs : p ++ '(' :: (e ++ ')' :: (a ++ '=' :: b)) = p ++ '(' :: (e ++ ')' :: a) ++ '=' :: b := by simp
    have hl : '=' ∉ p ++ '(' :: (e ++ ')' :: a) := by simp [hp, he, ha]
    have hm : '(' ∈ p ++ '(' :: (e ++ ')' :: a) := by simp
    obtain ⟨hname, hmixed, -⟩ := side_of_paren hm
    rw [hcs, read_assignment_sides hl]
    simp only [Line.ofSides, hname, hmixed, Bool.false_and, Bool.false_eq_true, if_false, ite_self]

/-! ## Lines -/

/-- The text of a line with a group in it, without blanks at its ends. -/
theorem trim_group (p e s : String) : Text.trim (p ++ "(" ++ e ++ ")" ++ s).toList =
    Text.trimLeft p.toList ++ '(' :: (e.toList ++ ')' :: Text.trimRight s.toList) := by
  rw [← Text.trim_between (by decide) (by decide)]
  simp

theorem enter_assignment_context {p s : String}
    (h : '=' ∈ Text.trimLeft p.toList ∨ '=' ∈ Text.trimRight s.toList) :
    ∃ f, ∀ e v, Text.trim e.toList = e.toList → compute limits vars e = .ok v →
      enter limits vars (p ++ "(" ++ e ++ ")" ++ s) = (.refused f, vars) := by
  obtain ⟨f, hf⟩ := read_assignment_context h
  refine ⟨f, ?_⟩
  intro e v he hv
  obtain ⟨⟨-, heq⟩, -⟩ := compute_eq_ok_iff.mp hv
  rw [he] at heq
  have hm : '=' ∈ Text.trimLeft p.toList ++ '(' :: (e.toList ++ ')' :: Text.trimRight s.toList) := by
    rcases h with h | h <;> simp [h]
  have hline : Line.ofString (p ++ "(" ++ e ++ ")" ++ s) = .error f := by
    simp only [Line.ofString, trim_group]
    rw [if_neg (by simp), if_pos (by simpa using hm)]
    exact hf _ heq
  rw [enter, hline]

theorem enter_expression_group {p s e : String} {v : Int} (hp : '=' ∉ Text.trimLeft p.toList)
    (hs : '=' ∉ Text.trimRight s.toList) (he : Text.trim e.toList = e.toList) (hv : compute limits vars e = .ok v) :
    ∃ ks, computeKinds limits vars ks = .ok v ∧ enter limits vars (p ++ "(" ++ e ++ ")" ++ s) =
      answer vars (((around (Text.trimLeft p.toList) (Text.trimRight s.toList)).map fun c =>
        c.1 ++ .opening :: (ks ++ .closing :: c.2)).bind (computeKinds limits vars)) := by
  obtain ⟨⟨-, heq⟩, ks, hks, hvalue⟩ := compute_eq_ok_iff.mp hv
  rw [he] at heq hks
  have hexp : IsExpression (p ++ "(" ++ e ++ ")" ++ s) := by
    rw [IsExpression, trim_group]
    exact ⟨by simp, by simp [hp, hs, heq]⟩
  refine ⟨ks, hvalue, ?_⟩
  rw [enter_expression hexp, compute_expression hexp, trim_group, kinds_of_group hks]

/-- What a line with a group in it comes to is decided by the value of the group. -/
theorem enter_context (p s : String) :
    ∃ outcome : Int → Outcome × Variables, ∀ e v, Text.trim e.toList = e.toList → compute limits vars e = .ok v →
      enter limits vars (p ++ "(" ++ e ++ ")" ++ s) = outcome v := by
  by_cases h : '=' ∈ Text.trimLeft p.toList ∨ '=' ∈ Text.trimRight s.toList
  · obtain ⟨f, hf⟩ := enter_assignment_context limits vars h
    exact ⟨fun _ => (.refused f, vars), hf⟩
  obtain ⟨hp, hs⟩ := not_or.mp h
  cases hc : around (Text.trimLeft p.toList) (Text.trimRight s.toList) with
  | error f =>
    refine ⟨fun _ => (.refused f, vars), ?_⟩
    intro e v he hv
    obtain ⟨ks, -, hline⟩ := enter_expression_group limits vars hp hs he hv
    rw [hline, hc]
    rfl
  | ok c =>
    obtain ⟨outcome, ho⟩ := compute_kinds_context limits vars c.1 c.2
    refine ⟨fun v => answer vars (outcome v), ?_⟩
    intro e v he hv
    obtain ⟨ks, hvalue, hline⟩ := enter_expression_group limits vars hp hs he hv
    rw [hline, hc]
    exact congrArg (answer vars) (ho ks v hvalue)

/-- A group can be exchanged for one of the same value, or for the value itself, whatever
    stands around it. -/
theorem enter_group_congr (p s e₁ e₂ : String) (v : Int) (h₁ : Text.trim e₁.toList = e₁.toList)
    (h₂ : Text.trim e₂.toList = e₂.toList) (hv₁ : compute limits vars e₁ = .ok v)
    (hv₂ : compute limits vars e₂ = .ok v) :
    enter limits vars (p ++ "(" ++ e₁ ++ ")" ++ s) = enter limits vars (p ++ "(" ++ e₂ ++ ")" ++ s) ∧
      enter limits vars (p ++ "(" ++ e₁ ++ ")" ++ s) =
        enter limits vars (p ++ "(" ++ Text.Decimal.text v ++ ")" ++ s) := by
  obtain ⟨outcome, h⟩ := enter_context limits vars p s
  have htext : Text.trim (Text.Decimal.text v).toList = (Text.Decimal.text v).toList :=
    Text.trim_trimmed (literal_text v).trimmed
  exact ⟨(h e₁ v h₁ hv₁).trans (h e₂ v h₂ hv₂).symm,
    (h e₁ v h₁ hv₁).trans (h _ v htext (compute_text limits vars v)).symm⟩

theorem enter_group_congr_power :
    enter {} .empty "2 * -(1 + 2) ^ 2" = enter {} .empty "2 * -(9 / 3) ^ 2" ∧
      enter {} .empty "2 * -(1 + 2) ^ 2" = enter {} .empty "2 * -(3) ^ 2" := by
  have h₁ : compute {} .empty "1 + 2" = .ok 3 := eq_ok_of_to_option (by decide +kernel)
  have h₂ : compute {} .empty "9 / 3" = .ok 3 := eq_ok_of_to_option (by decide +kernel)
  exact enter_group_congr {} .empty "2 * -" " ^ 2" "1 + 2" "9 / 3" 3 (by decide) (by decide) h₁ h₂

end Reckon
