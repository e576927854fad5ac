/-
  Reckon.Proofs.Token.Ends — where a text and its tokens begin and end.

  A text that can be read holds no unknown character (`known_of_tokens`), so the blanks at
  its ends are gaps and trimming it moves its tokens and changes nothing else
  (`tokens_trim`); no token is left exactly if nothing but blanks is in it
  (`trim_eq_nil_iff`). The first character of a trimmed text belongs to its first token
  and the last one to its last, so which operators stand at its ends is told by the kinds
  of its tokens (`dangles_of_tokens`).
-/

import Reckon.Proofs.Line.Reading

namespace Reckon

open Token (Kind isGap isUnknown)

/-! ## Characters that can be read -/

namespace Token.Lexer

theorem known_of_tokens {cs : List Char} {pos : Nat} {ts : List Token} (h : tokens ⟨cs, pos⟩ = .ok ts) :
    ∀ c ∈ cs, isUnknown c = false :=
  tokens_ok_iff.mp ⟨ts, h⟩

theorem blank_of_gap {c : Char} (h : isGap c = true) : Text.isBlank c = true := by
  simp only [isGap, Bool.or_eq_true, beq_iff_eq] at h
  rcases h with ((rfl | rfl) | rfl) | rfl <;> decide

theorem known_cases {c : Char} (h : isUnknown c = false) :
    isGap c = true ∨ (∃ k, Kind.ofChar? c = some k) ∨ c.isAlpha = true ∨ c.isDigit = true := by
  by_cases hg : isGap c = true
  · exact Or.inl hg
  cases hk : Kind.ofChar? c with
  | some k => exact Or.inr (Or.inl ⟨k, rfl⟩)
  | none =>
    by_cases hd : c.isDigit = true
    · exact Or.inr (Or.inr (Or.inr hd))
    · by_cases ha : c.isAlpha = true
      · exact Or.inr (Or.inr (Or.inl ha))
      · simp [isUnknown, hg, hk, hd, ha] at h

/-- The blanks that can be read are gaps. -/
theorem gap_of_blank {c : Char} (hb : Text.isBlank c = true) (hk : isUnknown c = false) : isGap c = true := by
  rcases known_cases hk with hg | ⟨k, hs⟩ | hw
  · exact hg
  · rcases symbol_cases hs with ⟨o, -, rfl⟩ | ⟨-, rfl⟩ | ⟨-, rfl⟩ | ⟨-, rfl⟩
    · cases o <;> exact absurd hb (by decide)
    all_goals exact absurd hb (by decide)
  · rw [Text.blank_of_word hw] at hb
    cases hb

/-! ## Gaps at the ends -/

theorem tokens_gaps {g : List Char} (hg : ∀ c ∈ g, isGap c = true) (cs : List Char) (pos : Nat) :
    tokens ⟨g ++ cs, pos⟩ = tokens ⟨cs, pos + g.length⟩ := by
  induction g generalizing pos with
  | nil => rfl
  | cons c g ih =>
    rw [List.cons_append, tokens_gap (hg c List.mem_cons_self), ih fun d hd => hg d (List.mem_cons_of_mem c hd),
      List.length_cons]
    congr 2
    omega

theorem not_joins_gaps {g : List Char} (hg : ∀ c ∈ g, isGap c = true) (a : List Char) : ¬Joins a g := by
  rintro ⟨x, -, y, hy, hxy⟩
  obtain ⟨hd, ha⟩ := gap_plain (hg y (List.mem_of_head? hy))
  rw [hd, ha] at hxy
  simp at hxy

theorem tokens_around {before after : List Char} (hb : ∀ c ∈ before, isGap c = true)
    (ha : ∀ c ∈ after, isGap c = true) (cs : List Char) (pos : Nat) :
    tokens ⟨before ++ cs ++ after, pos⟩ = tokens ⟨cs, pos + before.length⟩ := by
  have hnone : ∀ p, tokens ⟨after, p⟩ = .ok [] := by
    intro p
    have h := tokens_gaps ha [] p
    rwa [List.append_nil, tokens_nil] at h
  rw [List.append_assoc, tokens_gaps hb, tokens_append (not_joins_gaps ha cs), hnone]
  cases tokens ⟨cs, pos + before.length⟩ with
  | error e => rfl
  | ok ts => exact congrArg Except.ok (List.append_nil ts)

/-- Trimming a text that can be read moves its tokens. -/
theorem tokens_trim {cs : List Char} {ts : List Token} (h : tokens ⟨cs, 0⟩ = .ok ts) :
    ∃ k us, tokens ⟨Text.trim cs, 0⟩ = .ok us ∧ ts = us.map (shiftToken k) := by
  obtain ⟨before, after, he, hb, ha⟩ := Text.trim_splits cs
  have hknown := known_of_tokens h
  have gap : ∀ c ∈ cs, Text.isBlank c = true → isGap c = true := fun c hc hblank => gap_of_blank hblank (hknown c hc)
  have hbefore : ∀ c ∈ before, isGap c = true := by
    intro c hc
    exact gap c (by rw [he]; simp [hc]) (hb c hc)
  have hafter : ∀ c ∈ after, isGap c = true := by
    intro c hc
    exact gap c (by rw [he]; simp [hc]) (ha c hc)
  have hmoved := tokens_shift (Text.trim cs) 0 before.length
  rw [← tokens_around hbefore hafter, ← he, h] at hmoved
  cases ht : tokens ⟨Text.trim cs, 0⟩ with
  | error e =>
    rw [ht] at hmoved
    cases hmoved
  | ok us =>
    rw [ht] at hmoved
    exact ⟨before.length, us, rfl, Except.ok.inj hmoved⟩

theorem gaps_of_no_token {cs : List Char} {pos : Nat} (h : tokens ⟨cs, pos⟩ = .ok []) :
    ∀ c ∈ cs, isGap c = true := by
  induction cs using reading_induction generalizing pos with
  | nil => simp
  | gap c cs hc ih =>
    rw [tokens_gap hc] at h
    intro x hx
    rcases List.mem_cons.mp hx with rfl | hx
    · exact hc
    · exact ih h x hx
  | symbol c k cs hk ih =>
    rw [tokens_symbol hk] at h
    obtain ⟨us, -, he⟩ := map_eq_ok h
    cases he
  | digits w cs hne hw hcs ih =>
    rw [tokens_digits hne hw hcs] at h
    obtain ⟨us, -, he⟩ := map_eq_ok h
    cases he
  | letters w cs hne hw hcs ih =>
    rw [tokens_letters hne hw hcs] at h
    obtain ⟨us, -, he⟩ := map_eq_ok h
    cases he
  | unknown c cs hc =>
    rw [tokens_unknown hc] at h
    cases h

/-- A text without tokens is blank, and a blank text that can be read has none. -/
theorem trim_eq_nil_iff {cs : List Char} {ts : List Token} (h : tokens ⟨cs, 0⟩ = .ok ts) :
    Text.trim cs = [] ↔ ts = [] := by
  obtain ⟨k, us, hu, rfl⟩ := tokens_trim h
  rw [List.map_eq_nil_iff]
  constructor
  · intro hn
    rw [hn, tokens_nil] at hu
    exact (Except.ok.inj hu).symm
  · rintro rfl
    cases ht : Text.trim cs with
    | nil => rfl
    | cons c rest =>
      have hgap : isGap c = true := gaps_of_no_token hu c (by simp [ht])
      have hblank : Text.isBlank c = false := Text.trim_head (by rw [ht]; rfl)
      rw [blank_of_gap hgap] at hblank
      cases hblank

end Token.Lexer

/-! ## Operators at the ends -/

/-- The kinds of token that `Line.danglesFirst` and `Line.danglesLast` are about. -/
def kindDanglesFirst : Kind → Bool
  | .op o => !o.isSign
  | .num _ | .ident _ | .opening | .closing | .equals => false

def kindDanglesLast : Kind → Bool
  | .op o => o.isSign || o = .pow
  | .num _ | .ident _ | .opening | .closing | .equals => false

/-- An operator is first or last among some tokens where it may not be. -/
def kindsDangle (ks : List Kind) : Bool := ks.head?.any kindDanglesFirst || ks.getLast?.any kindDanglesLast

theorem dangles_of_symbol {c : Char} {k : Kind} (h : Kind.ofChar? c = some k) :
    Line.danglesFirst c = kindDanglesFirst k ∧ Line.danglesLast c = kindDanglesLast k := by
  rcases Token.symbol_cases h with ⟨o, rfl, rfl⟩ | ⟨rfl, rfl⟩ | ⟨rfl, rfl⟩ | ⟨rfl, rfl⟩
  · cases o <;> decide
  all_goals decide

open Token.Lexer

theorem first_dangles {cs : List Char} {pos : Nat} {ts : List Token} (h : tokens ⟨cs, pos⟩ = .ok ts)
    (hc : ∀ c ∈ cs.head?, isGap c = false) :
    cs.head?.any Line.danglesFirst = (ts.map (·.kind)).head?.any kindDanglesFirst := by
  have word : ∀ {w : List Char} (cs : List Char), w ≠ [] → (∀ c ∈ w, c.isAlpha = true ∨ c.isDigit = true) →
      (w ++ cs).head?.any Line.danglesFirst = false := by
    intro w cs hne hw
    obtain ⟨d, w, rfl⟩ := List.exists_cons_of_ne_nil hne
    exact (dangles_of_word (hw d List.mem_cons_self)).1
  cases cs using reading_induction with
  | nil =>
    rw [tokens_nil] at h
    cases h
    rfl
  | gap c cs hg =>
    rw [hc c rfl] at hg
    cases hg
  | symbol c k cs hk =>
    rw [tokens_symbol hk] at h
    obtain ⟨us, -, rfl⟩ := map_eq_ok h
    exact (dangles_of_symbol hk).1
  | digits w cs hne hw hcs =>
    rw [tokens_digits hne hw hcs] at h
    obtain ⟨us, -, rfl⟩ := map_eq_ok h
    exact word cs hne fun c hc => Or.inr (hw c hc)
  | letters w cs hne hw hcs =>
    rw [tokens_letters hne hw hcs] at h
    obtain ⟨us, -, rfl⟩ := map_eq_ok h
    exact word cs hne fun c hc => Or.inl (hw c hc)
  | unknown c cs hu =>
    rw [tokens_unknown hu] at h
    cases h

/-- The last character belongs to the last token: the piece `w` to the token `t`, unless
    more is to be read after it. -/
theorem last_dangles_piece {w cs : List Char} {pos : Nat} {t : Token} {ts : List Token}
    (h : tokens ⟨cs, pos⟩ = .ok ts)
    (hw : w.getLast?.any Line.danglesLast = kindDanglesLast t.kind)
    (hgap : ∀ c ∈ (w ++ cs).getLast?, isGap c = false)
    (ih : (∀ c ∈ cs.getLast?, isGap c = false) →
      cs.getLast?.any Line.danglesLast = (ts.map (·.kind)).getLast?.any kindDanglesLast) :
    (w ++ cs).getLast?.any Line.danglesLast = ((t :: ts).map (·.kind)).getLast?.any kindDanglesLast := by
  by_cases hcs : cs = []
  · subst hcs
    rw [tokens_nil] at h
    cases h
    rw [List.append_nil, hw]
    rfl
  · rw [List.getLast?_append_of_ne_nil w hcs] at hgap ⊢
    have hts : ts ≠ [] := by
      rintro rfl
      have hlast := List.getLast?_eq_some_getLast hcs
      have hg := gaps_of_no_token h _ (List.getLast_mem hcs)
      rw [hgap _ hlast] at hg
      cases hg
    obtain ⟨u, us, rfl⟩ := List.exists_cons_of_ne_nil hts
    rw [ih hgap]
    show _ = (t.kind :: u.kind :: us.map (·.kind)).getLast?.any kindDanglesLast
    rw [List.getLast?_cons_cons]
    rfl

theorem last_dangles {cs : List Char} {pos : Nat} {ts : List Token} (h : tokens ⟨cs, pos⟩ = .ok ts)
    (hgap : ∀ c ∈ cs.getLast?, isGap c = false) :
    cs.getLast?.any Line.danglesLast = (ts.map (·.kind)).getLast?.any kindDanglesLast := by
  have word : ∀ {w : List Char}, w ≠ [] → (∀ c ∈ w, c.isAlpha = true ∨ c.isDigit = true) →
      w.getLast?.any Line.danglesLast = false := by
    intro w hne hw
    rw [List.getLast?_eq_some_getLast hne]
    exact (dangles_of_word (hw _ (List.getLast_mem hne))).2
  induction cs using reading_induction generalizing pos ts with
  | nil =>
    rw [tokens_nil] at h
    cases h
    rfl
  | gap c cs hc ih =>
    rw [tokens_gap hc] at h
    by_cases hcs : cs = []
    · rw [hcs] at hgap
      rw [hgap c rfl] at hc
      cases hc
    · rw [← List.singleton_append, List.getLast?_append_of_ne_nil [c] hcs] at hgap ⊢
      exact ih h hgap
  | symbol c k cs hk ih =>
    rw [tokens_symbol hk] at h
    obtain ⟨us, hu, rfl⟩ := map_eq_ok h
    exact last_dangles_piece (w := [c]) hu (dangles_of_symbol hk).2 hgap (ih hu)
  | digits w cs hne hw hcs ih =>
    rw [tokens_digits hne hw hcs] at h
    obtain ⟨us, hu, rfl⟩ := map_eq_ok h
    exact last_dangles_piece hu (word hne fun c hc => Or.inr (hw c hc)) hgap (ih hu)
  | letters w cs hne hw hcs ih =>
    rw [tokens_letters hne hw hcs] at h
    obtain ⟨us, hu, rfl⟩ := map_eq_ok h
    exact last_dangles_piece hu (word hne fun c hc => Or.inl (hw c hc)) hgap (ih hu)
  | unknown c cs hu =>
    rw [tokens_unknown hu] at h
    cases h

theorem not_gap_of_not_blank {c : Char} (h : Text.isBlank c = false) : isGap c = false := by
  cases hg : isGap c with
  | false => rfl
  | true =>
    rw [blank_of_gap hg] at h
    cases h

theorem dangles_of_tokens {cs : List Char} {ts : List Token} (h : tokens ⟨cs, 0⟩ = .ok ts) (hc : Text.Trimmed cs) :
    danglesAtEnds cs = kindsDangle (ts.map (·.kind)) := by
  have hfirst := first_dangles h fun c hm => not_gap_of_not_blank (hc.1 c hm)
  have hlast := last_dangles h fun c hm => not_gap_of_not_blank (hc.2 c hm)
  rw [danglesAtEnds, kindsDangle, hfirst, hlast]

/-! ## The checks on a trimmed text -/

theorem kinds_of_trimmed {cs : List Char} {ts : List Token} (h : tokens ⟨cs, 0⟩ = .ok ts) (hc : Text.Trimmed cs) :
    kindsOf cs = if kindsDangle (ts.map (·.kind)) then .error .invalidExpression else passing ts := by
  rw [kinds_of_eq, dangles_of_tokens h hc, Token.Lexer.ofList, h]

theorem kinds_of_unreadable {cs : List Char} {e : Token.LexError} (h : tokens ⟨cs, 0⟩ = .error e) :
    kindsOf cs = .error .invalidExpression := by
  rw [kinds_of_eq, Token.Lexer.ofList, h]
  split <;> rfl

end Reckon
