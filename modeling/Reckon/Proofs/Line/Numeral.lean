/-
  Reckon.Proofs.Line.Numeral — integers and names, each entered as a line of its own.

  A literal reads as a number, with its sign before it (`kinds_of_literal`), and its value
  is the integer that it denotes (`compute_literal`). So is the value of the decimal text
  of an integer that integer (`compute_text`). A name that is bound has the value that it
  is bound to (`compute_name`).
-/

import Reckon.Proofs.Formula.Settling
import Reckon.Proofs.Text.Literal
import Reckon.Proofs.Text.Names
import Reckon.Proofs.Token.Ends

namespace Reckon

open Text.Decimal
open Token (Kind)

/-- The kinds of the tokens that spell an integer. -/
def numeral : Int → List Kind
  | .ofNat n => [.num n]
  | .negSucc n => [.op .sub, .num (n + 1)]

/-- The kinds of the tokens of a literal, and the integer that it denotes. -/
inductive Numeral : List Kind → Int → Prop
  | plain (n : Nat) : Numeral [.num n] n
  | plus (n : Nat) : Numeral [.op .add, .num n] n
  | minus (n : Nat) : Numeral [.op .sub, .num n] (-(n : Int))

/-! ## Its tokens -/

theorem tokens_number {ds : List Char} (h : Digits ds) (pos : Nat) :
    Token.Lexer.tokens ⟨ds, pos⟩ = .ok [⟨.num (worth ds), pos, ds.length⟩] := by
  have hn : ∀ c ∈ ([] : List Char).head?, c.isDigit = false := by simp
  have ht := Token.Lexer.tokens_digits h.1 h.2 hn pos
  rw [List.append_nil, Token.Lexer.tokens_nil, value_eq_worth] at ht
  exact ht

theorem tokens_literal {cs : List Char} {v : Int} (h : Literal cs v) (pos : Nat) :
    ∃ ts, Token.Lexer.tokens ⟨cs, pos⟩ = .ok ts ∧ Numeral (ts.map (·.kind)) v := by
  -- The sign is a token by itself, and the number after it another.
  have signed : ∀ {c : Char} {k : Kind} {ds : List Char}, Kind.ofChar? c = some k → Digits ds →
      Token.Lexer.tokens ⟨c :: ds, pos⟩ = .ok [⟨k, pos, 1⟩, ⟨.num (worth ds), pos + 1, ds.length⟩] := by
    intro c k ds hc hd
    rw [Token.Lexer.tokens_symbol hc, tokens_number hd]
    rfl
  cases h with
  | plain hd => exact ⟨_, tokens_number hd pos, .plain _⟩
  | plus hd => exact ⟨_, signed rfl hd, .plus _⟩
  | minus hd => exact ⟨_, signed rfl hd, .minus _⟩

theorem tokens_signed_digits (v : Int) (pos : Nat) :
    ∃ ts, Token.Lexer.tokens ⟨signedDigits v, pos⟩ = .ok ts ∧ ts.map (·.kind) = numeral v := by
  have number : ∀ n pos, Token.Lexer.tokens ⟨digits n, pos⟩ = .ok [⟨.num n, pos, (digits n).length⟩] := by
    intro n pos
    have h := tokens_number (is_natural_iff.mp (is_natural_digits n)) pos
    rwa [← value_eq_worth, value_digits] at h
  cases v with
  | ofNat n => exact ⟨_, number n pos, rfl⟩
  | negSucc n =>
    refine ⟨⟨.op .sub, pos, 1⟩ :: [⟨.num (n + 1), pos + 1, (digits (n + 1)).length⟩], ?_, rfl⟩
    rw [signedDigits, Token.Lexer.tokens_symbol (k := .op .sub) rfl, number]
    rfl

theorem Numeral.passing {ts : List Token} {v : Int} (h : Numeral (ts.map (·.kind)) v) :
    passing ts = .ok (ts.map (·.kind)) := by
  have plain : ∀ {ks : List Kind}, Numeral ks v → (∀ name, Kind.ident name ∉ ks) ∧ ks.IsChain Apart ∧
      ks.countP (· = .opening) = ks.countP (· = .closing) := by
    intro ks h
    cases h <;> simp [Apart]
  obtain ⟨hname, hapart, hcount⟩ := plain h
  have hspaced : Spaced ts := by
    refine spaced_of_no_name ?_
    intro t ht name hk
    exact hname name (hk ▸ List.mem_map_of_mem ht)
  rw [passing_eq_ok_iff, count_kinds, count_kinds]
  exact ⟨no_clash_of_apart hspaced hapart, hcount, rfl⟩

theorem Numeral.dangles {ks : List Kind} {v : Int} (h : Numeral ks v) : kindsDangle ks = false := by
  cases h <;> rfl

theorem kinds_of_literal {cs : List Char} {v : Int} (h : Literal cs v) : ∃ ks, kindsOf cs = .ok ks ∧ Numeral ks v := by
  obtain ⟨ts, ht, hk⟩ := tokens_literal h 0
  refine ⟨_, ?_, hk⟩
  rw [kinds_of_trimmed ht h.trimmed, hk.dangles, hk.passing]
  rfl

/-! ## Its value -/

theorem Numeral.value {ks : List Kind} {v : Int} (h : Numeral ks v) (limits : Limits) (vars : Variables) :
    computeKinds limits vars ks = .ok v := by
  cases h with
  | plain n =>
    show Formula.value limits [.num n] = _
    rw [Formula.value, Formula.settle_signs_eq]
    rfl
  | plus n =>
    show Formula.value limits [.op .add, .num n] = _
    rw [Formula.value, Formula.settle_signs_eq]
    rfl
  | minus n =>
    show Formula.value limits [.op .sub, .num n] = _
    rw [Formula.value, Formula.settle_signs_eq]
    rfl

theorem compute_literal {line : String} {v : Int} (h : Literal line.toList v) (limits : Limits) (vars : Variables) :
    compute limits vars line = .ok v := by
  have ht : Text.trim line.toList = line.toList := Text.trim_trimmed h.trimmed
  obtain ⟨ks, hk, hv⟩ := kinds_of_literal h
  refine compute_eq_ok_iff.mpr ?_
  rw [IsExpression, ht]
  exact ⟨⟨h.ne_nil, h.not_mem_equals⟩, ks, hk, hv.value limits vars⟩

theorem literal_text (v : Int) : Literal (text v).toList v := by
  rw [text, String.toList_ofList]
  exact literal_signed_digits v

theorem compute_text (limits : Limits) (vars : Variables) (v : Int) : compute limits vars (text v) = .ok v :=
  compute_literal (literal_text v) limits vars

/-! ## Names -/

theorem compute_name {vars : Variables} {name : String} {v : Int} (hname : isVariableName name = true)
    (hv : vars.get? name = some v) (limits : Limits) : compute limits vars name = .ok v := by
  have hw := Text.is_name_iff.mp hname
  have htrimmed : Text.Trimmed name.toList := Text.trimmed_letters hw
  have htokens : Token.Lexer.tokens ⟨name.toList, 0⟩ = .ok [⟨.ident name, 0, name.toList.length⟩] := by
    have hnone : ∀ c ∈ ([] : List Char).head?, c.isAlpha = false := by simp
    have ht := Token.Lexer.tokens_letters hw.1 hw.2 hnone 0
    rw [List.append_nil, Token.Lexer.tokens_nil, String.ofList_toList] at ht
    exact ht
  have hkinds : kindsOf name.toList = .ok [.ident name] := kinds_of_trimmed htokens htrimmed
  have hequals : '=' ∉ name.toList := fun hm => absurd (hw.2 _ hm) (by decide)
  refine compute_eq_ok_iff.mpr ?_
  rw [IsExpression, Text.trim_trimmed htrimmed]
  refine ⟨⟨hw.1, hequals⟩, [.ident name], hkinds, ?_⟩
  rw [compute_kinds_eq_ok_iff]
  refine ⟨[.num v], ?_, ?_⟩
  · rw [symbols_of_cons, Formula.symbolOf, hv]
    rfl
  · rw [Formula.value, Formula.settle_signs_eq]
    rfl

end Reckon
