/-
  Reckon.Proofs.Token.Tiling — tokens tile the text that they are read off.

  A text is laid out as some tokens if it is the words that spell them, in their order and
  each where its token says, with nothing but gaps between and around them, and no word
  goes on in the next (`Laid`). A text is read as some tokens exactly if it is laid out as
  them (`tokens_iff_laid`). What follows for the places of the tokens, in bytes, is
  `Tiles`.

  A lexer is asked for one item after another (`pull`). It answers with its items, at most
  as many as bytes, and with nothing from then on (`answer_eq`). These are the tokens that
  tile the text as far as it can be read, and the error where it cannot (`items_tile`).
-/

import Mathlib.Data.String.Basic
import Reckon.Proofs.Text.Literal
import Reckon.Proofs.Token.Ends

namespace Reckon.Token

open String (utf8Len)
open Text (Letters)
open Text.Decimal (Digits worth value_eq_worth)

/-! ## Characters -/

/-- The characters that tokens are made of, and those that may stand between them. -/
def Readable (c : Char) : Prop :=
  c.isDigit = true ∨ c.isAlpha = true ∨ c ∈ ['+', '-', '*', '/', '^', '(', ')', '='] ∨ c ∈ [' ', '\n', '\r', '\t']

instance (c : Char) : Decidable (Readable c) := inferInstanceAs (Decidable (_ ∨ _ ∨ _ ∨ _))

theorem symbol_iff {c : Char} : (∃ k, Kind.ofChar? c = some k) ↔ c ∈ ['+', '-', '*', '/', '^', '(', ')', '='] := by
  constructor
  · rintro ⟨k, hk⟩
    rcases symbol_cases hk with ⟨o, -, rfl⟩ | ⟨-, rfl⟩ | ⟨-, rfl⟩ | ⟨-, rfl⟩
    · cases o <;> decide
    all_goals decide
  · intro h
    simp only [List.mem_cons, List.not_mem_nil, or_false] at h
    rcases h with rfl | rfl | rfl | rfl | rfl | rfl | rfl | rfl <;> exact ⟨_, rfl⟩

theorem gap_iff {c : Char} : isGap c = true ↔ c ∈ [' ', '\n', '\r', '\t'] := by
  simp [isGap, or_assoc]

theorem readable_iff {c : Char} : Readable c ↔ isUnknown c = false := by
  rw [Readable, ← symbol_iff, ← gap_iff]
  constructor
  · rintro (h | h | ⟨k, h⟩ | h) <;> simp [isUnknown, h]
  · intro h
    rcases Lexer.known_cases h with h | h | h | h
    · exact Or.inr (Or.inr (Or.inr h))
    · exact Or.inr (Or.inr (Or.inl h))
    · exact Or.inr (Or.inl h)
    · exact Or.inl h

theorem Readable.utf8_size {c : Char} (h : Readable c) : c.utf8Size = 1 := by
  have hsymbols : ∀ d ∈ ['+', '-', '*', '/', '^', '(', ')', '='], d.toNat < 128 := by simp
  have hgaps : ∀ d ∈ [' ', '\n', '\r', '\t'], d.toNat < 128 := by simp
  have hascii : c.toNat < 128 := by
    rcases h with h | h | h | h
    · have := Text.digit_range h
      omega
    · have := Text.letter_range h
      omega
    · exact hsymbols c h
    · exact hgaps c h
  exact Char.utf8Size_eq_one_iff.mpr (UInt32.le_iff_toNat_le.mpr (Nat.le_of_lt_succ hascii))

/-- Where all can be read, a character is a byte. -/
theorem utf8_len_of_readable {cs : List Char} (h : ∀ c ∈ cs, Readable c) : utf8Len cs = cs.length := by
  induction cs with
  | nil => rfl
  | cons c cs ih =>
    obtain ⟨hc, hcs⟩ := List.forall_mem_cons.mp h
    rw [String.utf8Len_cons, ih hcs, hc.utf8_size, List.length_cons]

theorem length_le_utf8_len (cs : List Char) : cs.length ≤ utf8Len cs := by
  induction cs with
  | nil => exact Nat.le_refl 0
  | cons c cs ih =>
    have := c.utf8Size_pos
    rw [String.utf8Len_cons, List.length_cons]
    omega

/-! ## Words -/

/-- The text of a token: one character, or a number with any zeros before it, or a name. -/
inductive Spells : List Char → Kind → Prop
  | op (o : Operator) : Spells [o.symbol] (.op o)
  | opening : Spells ['('] .opening
  | closing : Spells [')'] .closing
  | equals : Spells ['='] .equals
  | number {ds : List Char} : Digits ds → Spells ds (.num (worth ds))
  | name {w : List Char} : Letters w → Spells w (.ident (String.ofList w))

/-- Two numbers or two names. -/
def sameSort : Kind → Kind → Bool
  | .num _, .num _ | .ident _, .ident _ => true
  | _, _ => false

variable {w v a b cs : List Char} {k : Kind}

theorem spells_of_symbol {c : Char} (h : Kind.ofChar? c = some k) : Spells [c] k := by
  rcases symbol_cases h with ⟨o, rfl, rfl⟩ | ⟨rfl, rfl⟩ | ⟨rfl, rfl⟩ | ⟨rfl, rfl⟩
  · exact .op o
  · exact .opening
  · exact .closing
  · exact .equals

theorem Spells.ne_nil (h : Spells w k) : w ≠ [] := by
  cases h with
  | op | opening | closing | equals => exact List.cons_ne_nil _ _
  | number hw | name hw => exact hw.1

theorem Spells.not_gap (h : Spells w k) {c : Char} (hc : c ∈ w) : isGap c = false := by
  cases h with
  | op o =>
    obtain rfl := List.mem_singleton.mp hc
    cases o <;> decide
  | opening | closing | equals =>
    obtain rfl := List.mem_singleton.mp hc
    decide
  | number hw => exact (word_plain (Or.inr (hw.2 c hc))).2
  | name hw => exact (word_plain (Or.inl (hw.2 c hc))).2

/-- A letter or a digit in a word tells what the word is. -/
theorem Spells.sort_of_char (h : Spells w k) {c : Char} (hc : c ∈ w) :
    (c.isDigit = true → ∃ n, k = .num n) ∧ (c.isAlpha = true → ∃ s, k = .ident s) := by
  have plain : ∀ {d : Char}, c ∈ [d] → d.isDigit = false ∧ d.isAlpha = false → ∀ {j : Kind},
      (c.isDigit = true → ∃ n, j = .num n) ∧ (c.isAlpha = true → ∃ s, j = .ident s) := by
    rintro d hd ⟨hdigit, hletter⟩ j
    obtain rfl := List.mem_singleton.mp hd
    simp [hdigit, hletter]
  cases h with
  | op o => exact plain hc (by cases o <;> decide)
  | opening | closing | equals => exact plain hc (by decide)
  | number hw => exact ⟨fun _ => ⟨_, rfl⟩, fun h => absurd h (by simp [Text.letter_of_digit (hw.2 c hc)])⟩
  | name hw => exact ⟨fun h => absurd h (by simp [Text.digit_of_letter (hw.2 c hc)]), fun _ => ⟨_, rfl⟩⟩

theorem Spells.digit_iff (h : Spells w k) {c : Char} (hc : c ∈ w) : c.isDigit = true ↔ ∃ n, k = .num n := by
  refine ⟨(h.sort_of_char hc).1, ?_⟩
  intro ⟨n, hk⟩
  cases h with
  | number hw => exact hw.2 c hc
  | op | opening | closing | equals | name => cases hk

theorem Spells.letter_iff (h : Spells w k) {c : Char} (hc : c ∈ w) : c.isAlpha = true ↔ ∃ s, k = .ident s := by
  refine ⟨(h.sort_of_char hc).2, ?_⟩
  intro ⟨s, hk⟩
  cases h with
  | name hw => exact hw.2 c hc
  | op | opening | closing | equals | number => cases hk

namespace Lexer

theorem joins_words {p : Char → Bool} (hp : p = Char.isDigit ∨ p = Char.isAlpha) (hw : w ≠ [] ∧ ∀ c ∈ w, p c = true)
    (hv : v ≠ [] ∧ ∀ c ∈ v, p c = true) (cs : List Char) : Joins w (v ++ cs) := by
  obtain ⟨y, v, rfl⟩ := List.exists_cons_of_ne_nil hv.1
  have hx := hw.2 _ (List.getLast_mem hw.1)
  have hy := hv.2 y List.mem_cons_self
  refine ⟨_, List.getLast?_eq_some_getLast hw.1, y, rfl, ?_⟩
  rcases hp with rfl | rfl
  · exact Or.inl ⟨hx, hy⟩
  · exact Or.inr ⟨hx, hy⟩

/-- A word goes on in the next one exactly if both are numbers or both are names. -/
theorem joins_iff_same_sort {j : Kind} (hw : Spells w k) (hv : Spells v j) (cs : List Char) :
    Joins w (v ++ cs) ↔ sameSort k j = true := by
  constructor
  · rintro ⟨x, hx, y, hy, hxy⟩
    rw [List.head?_append_of_ne_nil v hv.ne_nil] at hy
    have hxw := List.mem_of_getLast? hx
    have hyv := List.mem_of_head? hy
    rcases hxy with ⟨hx, hy⟩ | ⟨hx, hy⟩
    · obtain ⟨m, rfl⟩ := (hw.sort_of_char hxw).1 hx
      obtain ⟨n, rfl⟩ := (hv.sort_of_char hyv).1 hy
      rfl
    · obtain ⟨m, rfl⟩ := (hw.sort_of_char hxw).2 hx
      obtain ⟨n, rfl⟩ := (hv.sort_of_char hyv).2 hy
      rfl
  · intro h
    unfold sameSort at h
    split at h
    · cases hw with | number hw => cases hv with | number hv => exact joins_words (Or.inl rfl) hw hv cs
    · cases hw with | name hw => cases hv with | name hv => exact joins_words (Or.inr rfl) hw hv cs
    · cases h

theorem joins_of_prefix (h : Joins a b) (cs : List Char) : Joins a (b ++ cs) := by
  obtain ⟨x, hx, y, hy, hxy⟩ := h
  refine ⟨x, hx, y, ?_, hxy⟩
  rw [Option.mem_def] at hy ⊢
  rw [List.head?_append, hy]
  rfl

/-- What stands before a word and goes on in it is the text just before it. -/
theorem not_joins_before {x : List Char} (hx : ¬Joins x (a ++ w)) (ha : ¬Joins a w) : ¬Joins (x ++ a) w := by
  by_cases hn : a = []
  · subst hn
    rwa [List.append_nil]
  · rintro ⟨c, hc, hy⟩
    rw [List.getLast?_append_of_ne_nil x hn] at hc
    exact ha ⟨c, hc, hy⟩

theorem not_joins_plain (ha : ∀ c ∈ a.getLast?, c.isDigit = false ∧ c.isAlpha = false) (b : List Char) :
    ¬Joins a b := by
  rintro ⟨x, hx, y, -, hxy⟩
  obtain ⟨hd, hl⟩ := ha x hx
  rw [hd, hl] at hxy
  simp at hxy

/-! ## Texts laid out as tokens -/

/-- The text, which begins at the place given, is the words of the tokens with gaps
    between and around them. -/
inductive Laid : Nat → List Char → List Token → Prop
  | done {g : List Char} (pos : Nat) : (∀ c ∈ g, isGap c = true) → Laid pos g []
  | token {g w cs : List Char} {pos : Nat} {k : Kind} {ts : List Token} : (∀ c ∈ g, isGap c = true) → Spells w k →
      ¬Joins w cs → Laid (pos + g.length + w.length) cs ts →
      Laid pos (g ++ (w ++ cs)) (⟨k, pos + g.length, w.length⟩ :: ts)

theorem tokens_spelled (h : Spells w k) (hcs : ¬Joins w cs) (pos : Nat) :
    tokens ⟨w ++ cs, pos⟩ = (tokens ⟨cs, pos + w.length⟩).map (⟨k, pos, w.length⟩ :: ·) := by
  have hnext : ∀ {p : Char → Bool}, p = Char.isDigit ∨ p = Char.isAlpha → w ≠ [] → (∀ c ∈ w, p c = true) →
      ∀ c ∈ cs.head?, p c = false := by
    intro p hp hne hw
    have hnil : ∀ c ∈ ([] : List Char).head?, p c = false := by simp
    exact head_of_not_joins hp hne hw hnil (by rwa [List.append_nil])
  cases h with
  | op o => exact tokens_symbol (k := .op o) (by cases o <;> rfl) cs pos
  | opening | closing | equals => exact tokens_symbol rfl cs pos
  | number hw =>
    rw [tokens_digits hw.1 hw.2 (hnext (Or.inl rfl) hw.1 hw.2), value_eq_worth]
  | name hw => exact tokens_letters hw.1 hw.2 (hnext (Or.inr rfl) hw.1 hw.2) pos

theorem Laid.tokens {pos : Nat} {ts : List Token} (h : Laid pos cs ts) : tokens ⟨cs, pos⟩ = .ok ts := by
  induction h with
  | @done g pos hg =>
    have := tokens_gaps hg [] pos
    rwa [List.append_nil, tokens_nil] at this
  | token hg hw hcs _ ih =>
    rw [tokens_gaps hg, tokens_spelled hw hcs, ih]
    rfl

theorem Laid.gap {c : Char} {pos : Nat} {ts : List Token} (hc : isGap c = true) (h : Laid (pos + 1) cs ts) :
    Laid pos (c :: cs) ts := by
  cases h with
  | done _ hg => exact .done pos (List.forall_mem_cons.mpr ⟨hc, hg⟩)
  | @token g w cs _ k ts hg hw hcs hrest =>
    have hpos : pos + 1 + g.length = pos + (c :: g).length := by
      rw [List.length_cons]
      omega
    rw [hpos] at hrest ⊢
    exact .token (List.forall_mem_cons.mpr ⟨hc, hg⟩) hw hcs hrest

theorem Laid.word {pos : Nat} {ts : List Token} (hw : Spells w k) (hcs : ¬Joins w cs)
    (h : Laid (pos + w.length) cs ts) : Laid pos (w ++ cs) (⟨k, pos, w.length⟩ :: ts) :=
  .token (g := []) (by simp) hw hcs h

theorem not_joins_of_head {p : Char → Bool} (hp : p = Char.isDigit ∨ p = Char.isAlpha) (hw : ∀ c ∈ w, p c = true)
    (hcs : ∀ c ∈ cs.head?, p c = false) : ¬Joins w cs := by
  rintro ⟨x, hx, y, hy, hxy⟩
  have hxp := hw x (List.mem_of_getLast? hx)
  have hyp := hcs y hy
  rcases hp with rfl | rfl
  · rw [hyp, Text.letter_of_digit hxp] at hxy
    simp at hxy
  · rw [hyp, Text.digit_of_letter hxp] at hxy
    simp at hxy

theorem laid_of_tokens {pos : Nat} {ts : List Token} (h : tokens ⟨cs, pos⟩ = .ok ts) : Laid pos cs ts := by
  induction cs using reading_induction generalizing pos ts with
  | nil =>
    rw [tokens_nil] at h
    cases h
    exact .done pos (by simp)
  | gap c cs hc ih =>
    rw [tokens_gap hc] at h
    exact (ih h).gap hc
  | symbol c k cs hk ih =>
    rw [tokens_symbol hk] at h
    obtain ⟨us, hu, rfl⟩ := map_eq_ok h
    have hplain : ∀ d ∈ [c].getLast?, d.isDigit = false ∧ d.isAlpha = false := by simp [symbol_plain hk]
    exact (ih hu).word (spells_of_symbol hk) (not_joins_plain hplain cs)
  | digits w cs hne hw hcs ih =>
    rw [tokens_digits hne hw hcs, value_eq_worth] at h
    obtain ⟨us, hu, rfl⟩ := map_eq_ok h
    exact (ih hu).word (.number ⟨hne, hw⟩) (not_joins_of_head (Or.inl rfl) hw hcs)
  | letters w cs hne hw hcs ih =>
    rw [tokens_letters hne hw hcs] at h
    obtain ⟨us, hu, rfl⟩ := map_eq_ok h
    exact (ih hu).word (.name ⟨hne, hw⟩) (not_joins_of_head (Or.inr rfl) hw hcs)
  | unknown c cs hc =>
    rw [tokens_unknown hc] at h
    cases h

theorem tokens_iff_laid {pos : Nat} {ts : List Token} : tokens ⟨cs, pos⟩ = .ok ts ↔ Laid pos cs ts :=
  ⟨laid_of_tokens, Laid.tokens⟩

/-! ## Where the tokens are -/

namespace Laid

variable {pos : Nat} {ts : List Token}

/-- Every token is spelled out at its place, and its word is as long as it can be. -/
theorem spelled (h : Laid pos cs ts) : ∀ t ∈ ts, ∃ a w b, cs = a ++ w ++ b ∧ t.index = pos + a.length ∧
    t.len = w.length ∧ Spells w t.kind ∧ ¬Joins a w ∧ ¬Joins w b := by
  induction h with
  | done => simp
  | @token g w cs pos k ts hg hw hcs hrest ih =>
    refine List.forall_mem_cons.mpr ⟨?_, ?_⟩
    · have hplain : ∀ c ∈ g.getLast?, c.isDigit = false ∧ c.isAlpha = false :=
        fun c hc => gap_plain (hg c (List.mem_of_getLast? hc))
      exact ⟨g, w, cs, (List.append_assoc g w cs).symm, rfl, rfl, hw, not_joins_plain hplain w, hcs⟩
    · intro t ht
      obtain ⟨a, v, b, rfl, hindex, hlen, hv, ha, hb⟩ := ih t ht
      have hbefore : ¬Joins (g ++ w) (a ++ v) := by
        intro hj
        obtain ⟨x, hx, y, hy, hxy⟩ := joins_of_prefix hj b
        rw [List.getLast?_append_of_ne_nil g hw.ne_nil] at hx
        exact hcs ⟨x, hx, y, hy, hxy⟩
      refine ⟨g ++ w ++ a, v, b, by simp only [List.append_assoc], ?_, hlen, hv, not_joins_before hbefore ha, hb⟩
      rw [hindex, List.length_append, List.length_append]
      omega

theorem le_index (h : Laid pos cs ts) : ∀ t ∈ ts, pos ≤ t.index := by
  intro t ht
  obtain ⟨a, -, -, -, hindex, -⟩ := h.spelled t ht
  omega

theorem ordered (h : Laid pos cs ts) : ts.Pairwise fun t u => t.stop ≤ u.index := by
  induction h with
  | done => exact .nil
  | token _ _ _ hrest ih => exact .cons hrest.le_index ih

/-- Two numbers, or two names, have something between them. -/
theorem apart (h : Laid pos cs ts) : ts.Pairwise fun t u => sameSort t.kind u.kind = true → t.stop ≠ u.index := by
  induction h with
  | done => exact .nil
  | @token g w cs pos k ts hg hw hcs hrest ih =>
    refine .cons ?_ ih
    intro u hu hsort htouch
    obtain ⟨a, v, b, rfl, hindex, -, hv, -⟩ := hrest.spelled u hu
    have ha : a = [] := by
      refine List.length_eq_zero_iff.mp ?_
      simp only [Token.stop] at htouch
      omega
    subst ha
    rw [List.nil_append] at hcs
    exact hcs ((joins_iff_same_sort hw hv b).mpr hsort)

/-- What is in no token is a gap. -/
theorem outside (h : Laid pos cs ts) {a b : List Char} {c : Char} (hc : cs = a ++ c :: b) :
    isGap c = true ∨ ∃ t ∈ ts, t.index ≤ pos + a.length ∧ pos + a.length < t.stop := by
  induction h generalizing a with
  | done pos hg => exact Or.inl (hg c (by simp [hc]))
  | @token g w cs pos k ts hg hw hcs hrest ih =>
    by_cases hin : a.length < g.length
    · refine Or.inl (hg c ?_)
      have hget : (g ++ (w ++ cs))[a.length]? = some c := by rw [hc]; simp
      rw [List.getElem?_append_left hin] at hget
      exact List.mem_of_getElem? hget
    by_cases hword : a.length < g.length + w.length
    · refine Or.inr ⟨_, List.mem_cons_self, ?_, ?_⟩
      · simp only
        omega
      · simp only [Token.stop]
        omega
    · -- the character stands in the text after the word
      obtain ⟨a', rfl⟩ : ∃ a', a = g ++ w ++ a' := by
        rw [← List.append_assoc] at hc
        have hprefix : g ++ w <+: a ++ c :: b := ⟨cs, hc⟩
        obtain ⟨a', ha'⟩ := List.prefix_of_prefix_length_le hprefix (List.prefix_append a (c :: b)) (by
          rw [List.length_append]
          omega)
        exact ⟨a', ha'.symm⟩
      have hrest' : cs = a' ++ c :: b := by
        simpa only [List.append_assoc, List.append_cancel_left_eq] using hc
      have hlength : pos + (g ++ w ++ a').length = pos + g.length + w.length + a'.length := by
        simp only [List.length_append]
        omega
      rw [hlength]
      rcases ih hrest' with h | ⟨t, ht, hle, hlt⟩
      · exact Or.inl h
      · exact Or.inr ⟨t, List.mem_cons_of_mem _ ht, hle, hlt⟩

end Laid

/-- The tokens are where the text holds the words that spell them, places and lengths
    counted in bytes. -/
structure Tiles (cs : List Char) (ts : List Token) : Prop where
  /-- A word ends where the digits, or the letters, that it is made of end. -/
  spelled : ∀ t ∈ ts, ∃ a w b, cs = a ++ w ++ b ∧ t.index = utf8Len a ∧ t.len = utf8Len w ∧ Spells w t.kind ∧
    ¬Joins a w ∧ ¬Joins w b
  nonempty : ∀ t ∈ ts, t.index < t.stop
  ordered : ts.Pairwise fun t u => t.stop ≤ u.index
  apart : ts.Pairwise fun t u => sameSort t.kind u.kind = true → t.stop ≠ u.index
  outside : ∀ a c b, cs = a ++ c :: b → (∀ t ∈ ts, ¬(t.index ≤ utf8Len a ∧ utf8Len a < t.stop)) →
    c ∈ [' ', '\n', '\r', '\t']

theorem tiles_of_tokens {ts : List Token} (h : tokens ⟨cs, 0⟩ = .ok ts) : Tiles cs ts := by
  have hlaid := laid_of_tokens h
  have hreadable : ∀ c ∈ cs, Readable c := fun c hc => readable_iff.mpr (known_of_tokens h c hc)
  -- All of the text can be read, so a part of it has as many bytes as characters.
  have bytes : ∀ {a w b : List Char}, cs = a ++ w ++ b → utf8Len a = a.length ∧ utf8Len w = w.length := by
    rintro a w b rfl
    exact ⟨utf8_len_of_readable fun c hc => hreadable c (by simp [hc]),
      utf8_len_of_readable fun c hc => hreadable c (by simp [hc])⟩
  refine ⟨?_, ?_, hlaid.ordered, hlaid.apart, ?_⟩
  · intro t ht
    obtain ⟨a, w, b, he, hindex, hlen, hw, ha, hb⟩ := hlaid.spelled t ht
    obtain ⟨hba, hbw⟩ := bytes he
    rw [Nat.zero_add] at hindex
    exact ⟨a, w, b, he, hindex.trans hba.symm, hlen.trans hbw.symm, hw, ha, hb⟩
  · intro t ht
    obtain ⟨a, w, b, -, -, hlen, hw, -⟩ := hlaid.spelled t ht
    have := List.length_pos_iff.mpr hw.ne_nil
    rw [Token.stop]
    omega
  · intro a c b he hout
    have hba : utf8Len a = a.length := (bytes (w := []) (b := c :: b) (by simpa using he)).1
    rcases hlaid.outside he with hc | ⟨t, ht, hle, hlt⟩
    · exact gap_iff.mp hc
    · rw [Nat.zero_add] at hle hlt
      exact absurd ⟨hba ▸ hle, hba ▸ hlt⟩ (hout t ht)

/-! ## One item after another -/

/-- The answer of a lexer that is asked for its next item, and the lexer after that. -/
def pull (l : Lexer) : Option (Except LexError Token) × Lexer :=
  match l.next? with
  | some (item, after) => (some item, after)
  | none => (none, l.skip isGap)

/-- The answer to the last of some questions, if so many were asked before it. -/
def answer (l : Lexer) : Nat → Option (Except LexError Token)
  | 0 => l.pull.1
  | before + 1 => l.pull.2.answer before

@[simp] theorem skip_skip (p : Char → Bool) (l : Lexer) : (l.skip p).skip p = l.skip p := by
  refine skip_of_not ?_ _
  intro c hc
  have hn := List.head?_dropWhile_not p l.rest
  rw [Option.mem_def.mp hc] at hn
  simpa using hn

@[simp] theorem next_skip (l : Lexer) : (l.skip isGap).next? = l.next? := by
  simp only [next?, skip_skip]

theorem answer_eq (l : Lexer) (before : Nat) : l.answer before = l.items[before]? := by
  induction before generalizing l with
  | zero =>
    cases h : l.next? with
    | none => simp [answer, pull, h, items_of_end h]
    | some r => simp [answer, pull, h, items_of_next (show l.next? = some (r.1, r.2) from h)]
  | succ before ih =>
    rw [answer, ih]
    cases h : l.next? with
    | none =>
      have hend : (l.skip isGap).next? = none := by rw [next_skip, h]
      simp [pull, h, items_of_end h, items_of_end hend]
    | some r => simp [pull, h, items_of_next (show l.next? = some (r.1, r.2) from h)]

theorem length_items_le (l : Lexer) : l.items.length ≤ l.rest.length := by
  induction h : l.rest.length using Nat.strongRecOn generalizing l with
  | _ n ih =>
    subst h
    cases hn : l.next? with
    | none =>
      rw [items_of_end hn]
      exact Nat.zero_le _
    | some r =>
      have hlt := length_next_lt (show l.next? = some (r.1, r.2) from hn)
      have hle := ih _ hlt r.2 rfl
      rw [items_of_next (show l.next? = some (r.1, r.2) from hn), List.length_cons]
      omega

/-- A lexer answers with finitely many items and with nothing after them. The items of a
    text of readable characters are tokens that tile it. Those of any other text are the
    tokens of the text before its first other character, and the error at the byte where
    that stands. -/
theorem items_tile (text : String) :
    let l := ofString text
    (l.items.length ≤ text.utf8ByteSize ∧ ∀ before, l.answer before = l.items[before]?) ∧
      ((∃ ts, l.tokens = .ok ts) ↔ ∀ c ∈ text.toList, Readable c) ∧
      (∀ ts, l.tokens = .ok ts → l.items = ts.map .ok ∧ Tiles text.toList ts) ∧
      ∀ before c after, text.toList = before ++ c :: after → (∀ x ∈ before, Readable x) → ¬Readable c →
        l.tokens = .error (.unknownCharacter (utf8Len before)) ∧
          ∃ ts, (ofList before).tokens = .ok ts ∧ Tiles before ts ∧
            l.items = ts.map .ok ++ [.error (.unknownCharacter (utf8Len before))] := by
  intro l
  have hbytes : text.utf8ByteSize = utf8Len text.toList := by
    rw [← String.utf8ByteSize_ofList, String.ofList_toList]
  refine ⟨⟨?_, answer_eq l⟩, ?_, ?_, ?_⟩
  · rw [hbytes]
    exact (length_items_le l).trans (length_le_utf8_len text.toList)
  · simp only [readable_iff]
    exact tokens_ok_iff
  · intro ts h
    refine ⟨?_, tiles_of_tokens h⟩
    obtain ⟨us, hus⟩ := items_of_known (known_of_tokens h) 0
    have he : ts = us := Except.ok.inj (h.symm.trans (tokens_of_items hus))
    rw [he]
    exact hus
  · intro before c after htext hbefore hc
    have hknown : ∀ x ∈ before, isUnknown x = false := fun x hx => readable_iff.mp (hbefore x hx)
    have hunknown : isUnknown c = true := by
      rw [readable_iff] at hc
      simpa using hc
    obtain ⟨ts, hts⟩ := items_of_known hknown 0
    have hitems := items_before_unknown hunknown after hknown 0
    rw [hts, Nat.zero_add, ← utf8_len_of_readable hbefore, ← htext] at hitems
    have htokens := tokens_of_items hts
    exact ⟨tokens_of_items_error hitems, ts, htokens, tiles_of_tokens htokens, hitems⟩

/-- A number, a name and an operator before a letter of two bytes. -/
theorem items_tile_accent :
    let l := ofString "12 ab+é7"
    let ts : List Token := [⟨.num 12, 0, 2⟩, ⟨.ident "ab", 3, 2⟩, ⟨.op .add, 5, 1⟩]
    l.items = ts.map .ok ++ [.error (.unknownCharacter 6)] ∧ Tiles "12 ab+".toList ts ∧ l.answer 9 = none := by
  intro l ts
  obtain ⟨⟨-, hanswer⟩, -, -, herror⟩ := items_tile "12 ab+é7"
  have htext : "12 ab+é7".toList = "12 ab+".toList ++ 'é' :: ['7'] := by decide
  obtain ⟨-, us, hus, htiles, hitems⟩ := herror _ _ _ htext (by simp [Readable]) (by simp [Readable])
  have hts : (ofList "12 ab+".toList).tokens = .ok ts := eq_ok_of_to_option (by decide +kernel)
  obtain rfl : ts = us := Except.ok.inj (hts.symm.trans hus)
  have hsix : utf8Len "12 ab+".toList = 6 := by decide
  rw [hsix] at hitems
  refine ⟨hitems, htiles, ?_⟩
  rw [hanswer, hitems]
  rfl

end Lexer

end Reckon.Token
