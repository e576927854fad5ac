/-
  Reckon.Proofs.Transparency — a name counts for its value and for nothing else.

  `inline vars line` is the line with the decimal text of its value, in parentheses, in
  the place of every name that is bound. The names are the runs of letters in a text,
  as the lexer finds them (`tokens_inline`).

  If a line passes for an expression, so does the line without names (`kinds_of_inline`),
  whether or not it is well formed; then its symbols are those of the line, some numbers
  being spelled out (`symbols_of_inline`), and the two come to the same value or the same
  fault (`compute_inline`).
-/

import Reckon.Proofs.Formula.Inlining
import Reckon.Proofs.Line.Numeral
import Reckon.Proofs.Text.Names

namespace Reckon

open Text (mapNames Letters)
open Text.Decimal (signedDigits)
open Token (Kind)
open Token.Lexer (tokens)

/-! ## Texts without names -/

/-- The value of a name in parentheses, or the name if it is not bound. -/
def spell (vars : Variables) (name : List Char) : List Char :=
  match vars.get? (String.ofList name) with
  | some v => '(' :: (signedDigits v ++ [')'])
  | none => name

/-- A line with the values of its names in their place. -/
def inline (vars : Variables) (line : String) : String := String.ofList (mapNames (spell vars) line.toList)

/-- What becomes of a token. -/
def inlineKind (vars : Variables) : Kind → List Kind
  | .ident name =>
    match vars.get? name with
    | some v => .opening :: (numeral v ++ [.closing])
    | none => [.ident name]
  | k => [k]

variable {vars : Variables}

theorem spell_ne_nil {w : List Char} (hw : Letters w) : spell vars w ≠ [] := by
  unfold spell
  split
  · exact List.cons_ne_nil _ _
  · exact hw.1

/-- A letter or a parenthesis. -/
def EndsName (c : Char) : Prop := c.isAlpha = true ∨ c = '(' ∨ c = ')'

theorem spell_head {w : List Char} (hw : Letters w) {c : Char} (h : c ∈ (spell vars w).head?) : EndsName c := by
  unfold spell at h
  split at h
  · cases h
    exact Or.inr (Or.inl rfl)
  · exact Or.inl (hw.2 c (List.mem_of_head? h))

theorem spell_last {w : List Char} (hw : Letters w) {c : Char} (h : c ∈ (spell vars w).getLast?) : EndsName c := by
  unfold spell at h
  split at h
  · rw [← List.cons_append, List.getLast?_append] at h
    cases h
    exact Or.inr (Or.inr rfl)
  · exact Or.inl (hw.2 c (List.mem_of_getLast? h))

theorem not_mem_spell {w : List Char} (hw : Letters w) : '=' ∉ spell vars w := by
  unfold spell
  split
  · intro h
    simp only [List.mem_cons, List.mem_append, List.not_mem_nil, or_false] at h
    rcases h with h | h | h
    · exact absurd h (by decide)
    · exact (Text.Decimal.literal_signed_digits _).not_mem_equals h
    · exact absurd h (by decide)
  · intro h
    exact absurd (hw.2 _ h) (by decide)

/-- What may stand at an end of a name is neither blank nor a dangling operator. -/
theorem ends_name_plain {c : Char} (h : EndsName c) :
    Text.isBlank c = false ∧ Line.danglesFirst c = false ∧ Line.danglesLast c = false := by
  rcases h with h | rfl | rfl
  · exact ⟨Text.blank_of_word (Or.inl h), dangles_of_word (Or.inl h)⟩
  · decide
  · decide

/-! ## The ends of the line -/

theorem trim_spelled (cs : List Char) :
    Text.trim (mapNames (spell vars) cs) = mapNames (spell vars) (Text.trim cs) := by
  refine Text.trim_map_names (fun _ => spell_ne_nil) ?_ cs
  intro w hw
  exact ⟨fun c hc => (ends_name_plain (spell_head hw hc)).1, fun c hc => (ends_name_plain (spell_last hw hc)).1⟩

theorem dangles_map_names {cs : List Char} (h : danglesAtEnds cs = false) :
    danglesAtEnds (mapNames (spell vars) cs) = false := by
  obtain ⟨hf, hl⟩ := (dangles_eq_false_iff cs).mp h
  rw [dangles_eq_false_iff]
  constructor
  · intro c hc
    rcases Text.map_names_head (fun _ => spell_ne_nil) hc with h | ⟨w, hw, h⟩
    · exact hf c h
    · exact (ends_name_plain (spell_head hw h)).2.1
  · intro c hc
    rcases Text.map_names_last (fun _ => spell_ne_nil) hc with h | ⟨w, hw, h⟩
    · exact hl c h
    · exact (ends_name_plain (spell_last hw h)).2.2

theorem inline_expression {line : String} (h : IsExpression line) : IsExpression (inline vars line) := by
  rw [IsExpression, inline, String.toList_ofList, trim_spelled]
  constructor
  · intro hn
    exact h.1 ((Text.map_names_eq_nil_iff fun _ => spell_ne_nil).mp hn)
  · intro hm
    rcases Text.mem_map_names hm with hm | ⟨w, hw, hm⟩
    · exact h.2 hm
    · exact not_mem_spell hw hm

/-! ## The tokens of the line -/

/-- The value of a name is read as a numeral in parentheses. -/
theorem tokens_value (v : Int) {rest : List Char} {us : List Token} (pos : Nat)
    (h : tokens ⟨rest, pos + 1 + (signedDigits v).length + 1⟩ = .ok us) :
    ∃ gs, tokens ⟨'(' :: (signedDigits v ++ ')' :: rest), pos⟩ = .ok (gs ++ us) ∧
      gs.map (·.kind) = .opening :: (numeral v ++ [.closing]) := by
  have hopen : Kind.ofChar? '(' = some .opening := rfl
  have hclose : Kind.ofChar? ')' = some .closing := rfl
  obtain ⟨ds, hd, hk⟩ := tokens_signed_digits v (pos + 1)
  refine ⟨⟨.opening, pos, 1⟩ :: (ds ++ [⟨.closing, pos + 1 + (signedDigits v).length, 1⟩]), ?_, by simp [hk]⟩
  rw [Token.Lexer.tokens_symbol hopen, Token.Lexer.tokens_append (Token.Lexer.not_joins_symbol hclose _ _), hd,
    Token.Lexer.tokens_symbol hclose, h]
  simp [Except.map, bind, Except.bind, pure, Except.pure]

/-- The names of a line are its runs of letters: replacing those replaces its names. -/
theorem tokens_inline {cs : List Char} {ts : List Token} {pos : Nat} (h : tokens ⟨cs, pos⟩ = .ok ts) (pos' : Nat) :
    ∃ us, tokens ⟨mapNames (spell vars) cs, pos'⟩ = .ok us ∧
      us.map (·.kind) = (ts.map (·.kind)).flatMap (inlineKind vars) := by
  induction cs using Token.Lexer.reading_induction generalizing ts pos pos' with
  | nil =>
    rw [Token.Lexer.tokens_nil] at h
    cases h
    exact ⟨[], Token.Lexer.tokens_nil pos', rfl⟩
  | gap c cs hc ih =>
    rw [Token.Lexer.tokens_gap hc] at h
    rw [Text.map_names_cons (Token.gap_plain hc).2, Token.Lexer.tokens_gap hc]
    exact ih h (pos' + 1)
  | symbol c k cs hk ih =>
    rw [Token.Lexer.tokens_symbol hk] at h
    obtain ⟨ts, ht, rfl⟩ := map_eq_ok h
    obtain ⟨us, hu, hus⟩ := ih ht (pos' + 1)
    rw [Text.map_names_cons (Token.symbol_plain hk).2.2, Token.Lexer.tokens_symbol hk, hu]
    refine ⟨_, rfl, ?_⟩
    rcases Token.symbol_cases hk with ⟨o, rfl, -⟩ | ⟨rfl, -⟩ | ⟨rfl, -⟩ | ⟨rfl, -⟩ <;> simp [inlineKind, hus]
  | digits w cs hne hw hcs ih =>
    rw [Token.Lexer.tokens_digits hne hw hcs] at h
    obtain ⟨ts, ht, rfl⟩ := map_eq_ok h
    obtain ⟨us, hu, hus⟩ := ih ht (pos' + w.length)
    have hstop : ∀ c ∈ (mapNames (spell vars) cs).head?, c.isDigit = false := by
      intro c hc
      rcases Text.map_names_head (fun _ => spell_ne_nil) hc with h | ⟨w, hw, h⟩
      · exact hcs c h
      · rcases spell_head hw h with h | rfl | rfl
        · exact Text.digit_of_letter h
        · decide
        · decide
    rw [Text.map_names_plain fun c hc => Text.letter_of_digit (hw c hc), Token.Lexer.tokens_digits hne hw hstop, hu]
    exact ⟨_, rfl, by simp [inlineKind, hus]⟩
  | letters w cs hne hw hcs ih =>
    rw [Token.Lexer.tokens_letters hne hw hcs] at h
    obtain ⟨ts, ht, rfl⟩ := map_eq_ok h
    rw [Text.map_names_letters ⟨hne, hw⟩ hcs]
    cases hv : vars.get? (String.ofList w) with
    | some v =>
      obtain ⟨us, hu, hus⟩ := ih ht (pos' + 1 + (signedDigits v).length + 1)
      obtain ⟨gs, hg, hgs⟩ := tokens_value v pos' hu
      have hspell : spell vars w ++ mapNames (spell vars) cs =
          '(' :: (signedDigits v ++ ')' :: mapNames (spell vars) cs) := by simp [spell, hv]
      rw [hspell]
      exact ⟨gs ++ us, hg, by simp [inlineKind, hv, hus, hgs]⟩
    | none =>
      obtain ⟨us, hu, hus⟩ := ih ht (pos' + w.length)
      have hspell : spell vars w = w := by simp [spell, hv]
      have hstop : ∀ c ∈ (mapNames (spell vars) cs).head?, c.isAlpha = false := by
        cases cs with
        | nil => simp
        | cons c cs => rw [Text.map_names_cons (hcs c rfl)]; exact hcs
      rw [hspell, Token.Lexer.tokens_letters hne hw hstop, hu]
      exact ⟨_, rfl, by simp [inlineKind, hv, hus]⟩
  | unknown c cs hc =>
    rw [Token.Lexer.tokens_unknown hc] at h
    cases h

/-! ## Passing the checks -/

/-- Every name among some tokens is bound. -/
def Bound (vars : Variables) (ts : List Token) : Prop :=
  ∀ t ∈ ts, ∀ name, t.kind = .ident name → (vars.get? name).isSome = true

theorem count_inline (ks : List Kind) :
    (ks.flatMap (inlineKind vars)).countP (· = .opening) + ks.countP (· = .closing) =
      (ks.flatMap (inlineKind vars)).countP (· = .closing) + ks.countP (· = .opening) := by
  induction ks with
  | nil => rfl
  | cons k ks ih =>
    have hk : (inlineKind vars k).countP (· = .opening) + [k].countP (· = .closing) =
        (inlineKind vars k).countP (· = .closing) + [k].countP (· = .opening) := by
      cases k with
      | ident name =>
        cases hv : vars.get? name with
        | none => simp [inlineKind, hv]
        | some v => cases v <;> simp [inlineKind, hv, numeral]
      | num | op | opening | closing | equals => simp [inlineKind]
    simp only [List.flatMap_cons, List.countP_append, List.countP_cons, List.countP_nil, Nat.zero_add] at hk ⊢
    omega

theorem inline_kind_cases (k : Kind) :
    inlineKind vars k = [k] ∨ ∃ v, inlineKind vars k = .opening :: (numeral v ++ [.closing]) := by
  cases k with
  | ident name =>
    cases hv : vars.get? name with
    | none => exact Or.inl (by simp [inlineKind, hv])
    | some v => exact Or.inr ⟨v, by simp [inlineKind, hv]⟩
  | num | op | opening | closing | equals => exact Or.inl rfl

theorem apart_inline {ks : List Kind} (h : ks.IsChain Apart) : (ks.flatMap (inlineKind vars)).IsChain Apart := by
  induction ks with
  | nil => exact .nil
  | cons k ks ih =>
    rw [List.isChain_cons] at h
    rw [List.flatMap_cons, List.isChain_append]
    refine ⟨?_, ih h.2, ?_⟩
    · rcases inline_kind_cases k with hk | ⟨v, hk⟩
      · rw [hk]; exact .singleton k
      · rw [hk]; cases v <;> simp [numeral, Apart]
    · -- A parenthesis stands between a name's value and any number.
      intro x hx y hy m n hmn
      obtain ⟨hm, hn⟩ := hmn
      rcases inline_kind_cases k with hk | ⟨v, hk⟩
      · rw [hk] at hx
        cases hx
        cases ks with
        | nil => cases hy
        | cons j ks =>
          have hx : Apart k j := h.1 j rfl
          rcases inline_kind_cases j with hj | ⟨w, hj⟩
          · rw [List.flatMap_cons, hj] at hy
            cases hy
            exact hx m n ⟨hm, hn⟩
          · rw [List.flatMap_cons, hj] at hy
            cases hy
            cases hn
      · rw [hk, ← List.cons_append, List.getLast?_append] at hx
        cases hx
        cases hm

theorem not_name_inline {ts : List Token} (hb : Bound vars ts) {k : Kind}
    (hk : k ∈ (ts.map (·.kind)).flatMap (inlineKind vars)) (name : String) : k ≠ .ident name := by
  rintro rfl
  obtain ⟨j, hj, hk⟩ := List.mem_flatMap.mp hk
  obtain ⟨t, ht, rfl⟩ := List.mem_map.mp hj
  cases hkind : t.kind with
  | ident x =>
    obtain ⟨v, hv⟩ := Option.isSome_iff_exists.mp (hb t ht x hkind)
    rw [hkind] at hk
    cases v <;> simp [inlineKind, hv, numeral] at hk
  | num | op | opening | closing | equals => simp [inlineKind, hkind] at hk

theorem passing_inline {ts us : List Token} {ks : List Kind} (h : passing ts = .ok ks) (hb : Bound vars ts)
    (hu : us.map (·.kind) = (ts.map (·.kind)).flatMap (inlineKind vars)) :
    passing us = .ok (ks.flatMap (inlineKind vars)) := by
  obtain ⟨hc, hn, rfl⟩ := passing_eq_ok_iff.mp h
  refine passing_eq_ok_iff.mpr ⟨no_clash_of_apart (spaced_of_no_name ?_) ?_, ?_, hu⟩
  · intro t ht name
    exact not_name_inline hb (hu ▸ List.mem_map_of_mem ht) name
  · rw [hu]
    exact apart_inline (apart_of_no_clash hc)
  · have hi := @count_inline vars (ts.map (·.kind))
    rw [count_kinds, count_kinds] at hn
    rw [count_kinds, count_kinds, hu]
    omega

theorem kinds_of_inline {cs : List Char} {ts : List Token} (h : Line.readExpression cs = .ok (.expression ts))
    (hb : Bound vars ts) : kindsOf (mapNames (spell vars) cs) = .ok ((ts.map (·.kind)).flatMap (inlineKind vars)) := by
  have hk : kindsOf cs = .ok (ts.map (·.kind)) := by rw [kindsOf, h]; rfl
  obtain ⟨hd, ts', ht, hp⟩ := kinds_of_eq_ok_iff.mp hk
  have hts : ts' = ts := Except.ok.inj (ht.symm.trans (tokens_of_read h))
  subst hts
  obtain ⟨us, hu, hus⟩ := tokens_inline ht 0
  exact kinds_of_eq_ok_iff.mpr ⟨dangles_map_names hd, us, hu, passing_inline hp hb hus⟩

/-! ## The symbols of the line -/

theorem symbols_of_value (vars : Variables) (v : Int) (ks : List Kind) :
    symbolsOf vars (.opening :: (numeral v ++ [.closing]) ++ ks) =
      (symbolsOf vars ks).map fun xs => .opening :: (Formula.spelling v ++ .closing :: xs) := by
  have hv : symbolsOf vars (.opening :: (numeral v ++ [.closing])) =
      .ok (.opening :: (Formula.spelling v ++ [.closing])) := by cases v <;> rfl
  rw [symbols_of_append, hv]
  show (symbolsOf vars ks).map _ = _
  cases symbolsOf vars ks <;> simp [Except.map]

/-- The line without names has the same symbols, some numbers being spelled out, or the
    same fault. -/
theorem symbols_of_inline {ks : List Kind} (hb : ∀ name, .ident name ∈ ks → (vars.get? name).isSome = true) :
    (∃ f, symbolsOf vars ks = .error f ∧ symbolsOf .empty (ks.flatMap (inlineKind vars)) = .error f) ∨
      ∃ a b, symbolsOf vars ks = .ok a ∧ symbolsOf .empty (ks.flatMap (inlineKind vars)) = .ok b ∧
        Formula.Inlined a b := by
  induction ks with
  | nil => exact Or.inr ⟨[], [], rfl, rfl, .nil⟩
  | cons k ks ih =>
    have ih := ih fun name hn => hb name (List.mem_cons_of_mem k hn)
    have same : ∀ x, Formula.symbolOf vars k = .ok x → inlineKind vars k = [k] →
        Formula.symbolOf .empty k = .ok x → (∃ f, symbolsOf vars (k :: ks) = .error f ∧
          symbolsOf .empty ((k :: ks).flatMap (inlineKind vars)) = .error f) ∨
        ∃ a b, symbolsOf vars (k :: ks) = .ok a ∧
          symbolsOf .empty ((k :: ks).flatMap (inlineKind vars)) = .ok b ∧ Formula.Inlined a b := by
      intro x hx hk hx'
      rw [List.flatMap_cons, hk, List.singleton_append, symbols_of_cons, symbols_of_cons, hx, hx']
      rcases ih with ⟨f, ha, hb⟩ | ⟨a, b, ha, hb, hab⟩
      · exact Or.inl ⟨f, by rw [ha]; rfl, by rw [hb]; rfl⟩
      · exact Or.inr ⟨x :: a, x :: b, by rw [ha]; rfl, by rw [hb]; rfl, .same x hab⟩
    cases k with
    | num n => exact same (.num n) rfl rfl rfl
    | op o => exact same (.op o) rfl rfl rfl
    | opening => exact same .opening rfl rfl rfl
    | closing => exact same .closing rfl rfl rfl
    | equals => exact Or.inl ⟨.invalidExpression, symbols_of_cons .., symbols_of_cons ..⟩
    | ident name =>
      obtain ⟨v, hv⟩ := Option.isSome_iff_exists.mp (hb name List.mem_cons_self)
      have hx : Formula.symbolOf vars (.ident name) = .ok (.num v) := by simp [Formula.symbolOf, hv]
      have hk : inlineKind vars (.ident name) = .opening :: (numeral v ++ [.closing]) := by simp [inlineKind, hv]
      rw [List.flatMap_cons, hk, symbols_of_cons, hx, symbols_of_value]
      rcases ih with ⟨f, ha, hb⟩ | ⟨a, b, ha, hb, hab⟩
      · exact Or.inl ⟨f, by rw [ha]; rfl, by rw [hb]; rfl⟩
      · exact Or.inr ⟨.num v :: a, _, by rw [ha]; rfl, by rw [hb]; rfl, .number v hab⟩

/-! ## The value of the line -/

/-- A line that passes for an expression comes to the same as the line with the values of
    its names in their place. -/
theorem compute_inline {limits : Limits} {line : String} {ts : List Token}
    (h : Line.ofString line = .ok (.expression ts)) (hb : Bound vars ts) :
    compute limits vars line = compute limits .empty (inline vars line) := by
  obtain ⟨he, hr⟩ := expression_of_string h
  have hk : kindsOf (Text.trim line.toList) = .ok (ts.map (·.kind)) := by rw [kindsOf, hr]; rfl
  have hk' : kindsOf (Text.trim (inline vars line).toList) = .ok ((ts.map (·.kind)).flatMap (inlineKind vars)) := by
    rw [inline, String.toList_ofList, trim_spelled]
    exact kinds_of_inline hr hb
  rw [compute_expression he, compute_expression (inline_expression he), hk, hk']
  show computeKinds limits vars _ = computeKinds limits .empty _
  have names : ∀ name, Kind.ident name ∈ ts.map (·.kind) → (vars.get? name).isSome = true := by
    intro name hn
    obtain ⟨t, ht, hkind⟩ := List.mem_map.mp hn
    exact hb t ht name hkind
  rcases symbols_of_inline names with ⟨f, hf, hf'⟩ | ⟨a, b, ha, hb, hab⟩
  · rw [computeKinds, computeKinds, hf, hf']
  · rw [computeKinds, computeKinds, ha, hb]
    exact hab.value_eq

theorem compute_inline_negative :
    compute {} (Variables.empty.insert "x" (-3)) "2 - x ^ 2" = compute {} .empty "2 - (-3) ^ 2" := by
  have hline : Line.ofString "2 - x ^ 2" = .ok (.expression
      [⟨.num 2, 0, 1⟩, ⟨.op .sub, 2, 1⟩, ⟨.ident "x", 4, 1⟩, ⟨.op .pow, 6, 1⟩, ⟨.num 2, 8, 1⟩]) :=
    eq_ok_of_to_option (by decide +kernel)
  have hinline : inline (Variables.empty.insert "x" (-3)) "2 - x ^ 2" = "2 - (-3) ^ 2" := by decide +kernel
  rw [← hinline]
  refine compute_inline hline ?_
  intro t ht name hk
  simp only [List.mem_cons, List.not_mem_nil, or_false] at ht
  rcases ht with rfl | rfl | rfl | rfl | rfl <;> cases hk
  decide

end Reckon
