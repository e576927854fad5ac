/-
  Reckon.Proofs.Token.Reading — what the lexer makes of a text, piece by piece.

  A text is empty, or starts with a gap, a symbol (a character that is a token by itself),
  a run of digits, a run of letters, or a character that belongs to no token. For each
  there is one equation (`next_gap` to `next_unknown`, and so `tokens_gap` to
  `tokens_unknown`), and `reading_induction` takes a text apart in the same way. From
  these:
  - `tokens_append`: a text cut where no word is cut in two reads as its two parts;
  - `items_cases`: the reading goes up to the first unknown character, and no further;
  - `tokens_shift`: the place where a text begins moves its tokens and changes nothing else.
-/

import Reckon.Proofs.Text.Names
import Reckon.Proofs.Text.Trimming
import Reckon.Token.Lexer

namespace Reckon.Token

/-! ## Characters -/

theorem symbol_cases {c : Char} {k : Kind} (h : Kind.ofChar? c = some k) :
    (∃ o, k = .op o ∧ c = Operator.symbol o) ∨ (k = .opening ∧ c = '(') ∨ (k = .closing ∧ c = ')') ∨
      (k = .equals ∧ c = '=') := by
  unfold Kind.ofChar? at h
  split at h
  · rename_i o ho
    cases h
    exact Or.inl ⟨o, rfl, Operator.of_char_eq_some_iff.mp ho⟩
  · split at h <;> cases h <;> simp

theorem symbol_plain {c : Char} {k : Kind} (h : Kind.ofChar? c = some k) :
    isGap c = false ∧ c.isDigit = false ∧ c.isAlpha = false := by
  rcases symbol_cases h with ⟨o, -, rfl⟩ | ⟨-, rfl⟩ | ⟨-, rfl⟩ | ⟨-, rfl⟩
  · cases o <;> decide
  all_goals decide

theorem gap_plain {c : Char} (h : isGap c = true) : c.isDigit = false ∧ c.isAlpha = false := by
  simp only [isGap, Bool.or_eq_true, beq_iff_eq] at h
  rcases h with ((rfl | rfl) | rfl) | rfl <;> decide

theorem word_plain {c : Char} (h : c.isAlpha = true ∨ c.isDigit = true) :
    Kind.ofChar? c = none ∧ isGap c = false := by
  constructor
  · cases hk : Kind.ofChar? c with
    | none => rfl
    | some k =>
      obtain ⟨-, hd, ha⟩ := symbol_plain hk
      rw [hd, ha] at h
      simp at h
  · cases hg : isGap c with
    | false => rfl
    | true =>
      obtain ⟨hd, ha⟩ := gap_plain hg
      rw [hd, ha] at h
      simp at h

/-- A character that belongs to no token and separates none. -/
def isUnknown (c : Char) : Bool :=
  !isGap c && (Kind.ofChar? c).isNone && !c.isDigit && !c.isAlpha

namespace Lexer

/-! ## One equation for each beginning -/

theorem tokens_eq (l : Lexer) : l.tokens = match l.next? with
    | none => .ok []
    | some (.ok t, after) => after.tokens.map (t :: ·)
    | some (.error e, _) => .error e := by
  unfold tokens
  rw [items]
  split
  · rename_i h; rw [h]; rfl
  · rename_i item after h
    rw [h]
    cases item with
    | error e => rfl
    | ok t => cases ha : after.items.mapM id <;> simp [List.mapM_cons, ha] <;> rfl

theorem skip_of_not {p : Char → Bool} {cs : List Char} (h : ∀ c ∈ cs.head?, p c = false) (pos : Nat) :
    (⟨cs, pos⟩ : Lexer).skip p = ⟨cs, pos⟩ := by
  cases cs with
  | nil => rfl
  | cons c cs => simp [skip, h c rfl]

theorem skip_word {p : Char → Bool} {w cs : List Char} (hw : ∀ c ∈ w, p c = true)
    (hcs : ∀ c ∈ cs.head?, p c = false) (pos : Nat) :
    (⟨w ++ cs, pos⟩ : Lexer).skip p = ⟨cs, pos + w.length⟩ ∧ (w ++ cs).takeWhile p = w := by
  have ht : cs.takeWhile p = [] := by
    cases cs with
    | nil => rfl
    | cons c cs => simp [hcs c rfl]
  have hd : cs.dropWhile p = cs := by
    cases cs with
    | nil => rfl
    | cons c cs => simp [hcs c rfl]
  have htw : (w ++ cs).takeWhile p = w := by rw [List.takeWhile_append_of_pos hw, ht, List.append_nil]
  refine ⟨?_, htw⟩
  simp only [skip, htw, List.dropWhile_append_of_pos hw, hd]

theorem next_gap {c : Char} (h : isGap c = true) (cs : List Char) (pos : Nat) :
    next? ⟨c :: cs, pos⟩ = next? ⟨cs, pos + 1⟩ := by
  have hs : (⟨c :: cs, pos⟩ : Lexer).skip isGap = (⟨cs, pos + 1⟩ : Lexer).skip isGap := by
    simp only [skip, List.dropWhile_cons_of_pos h, List.takeWhile_cons_of_pos h, List.length_cons]
    congr 1
    omega
  unfold next?
  rw [hs]

theorem next_symbol {c : Char} {k : Kind} (h : Kind.ofChar? c = some k) (cs : List Char) (pos : Nat) :
    next? ⟨c :: cs, pos⟩ = some (.ok ⟨k, pos, 1⟩, ⟨cs, pos + 1⟩) := by
  rw [next?, skip_of_not (by simp [(symbol_plain h).1])]
  simp only [h]

/-- A word of characters that satisfy `p`, if such a character begins a token of that sort. -/
theorem next_word {p : Char → Bool} (kind : List Char → Kind) {pos : Nat}
    (hp : ∀ c cs, p c = true → next? ⟨c :: cs, pos⟩ =
      some (.ok (run p kind ⟨c :: cs, pos⟩).1, (run p kind ⟨c :: cs, pos⟩).2))
    {w cs : List Char} (hne : w ≠ []) (hw : ∀ c ∈ w, p c = true) (hcs : ∀ c ∈ cs.head?, p c = false) :
    next? ⟨w ++ cs, pos⟩ = some (.ok ⟨kind w, pos, w.length⟩, ⟨cs, pos + w.length⟩) := by
  obtain ⟨hs, ht⟩ := skip_word hw hcs pos
  have hr : run p kind ⟨w ++ cs, pos⟩ = (⟨kind w, pos, w.length⟩, ⟨cs, pos + w.length⟩) := by
    simp only [run, hs, ht]
  obtain ⟨c, w', rfl⟩ := List.exists_cons_of_ne_nil hne
  rw [List.cons_append] at hr ⊢
  rw [hp c _ (hw c List.mem_cons_self), hr]

theorem next_digits {w cs : List Char} (hne : w ≠ []) (hw : ∀ c ∈ w, c.isDigit = true)
    (hcs : ∀ c ∈ cs.head?, c.isDigit = false) (pos : Nat) : next? ⟨w ++ cs, pos⟩ =
      some (.ok ⟨.num (Text.Decimal.value w), pos, w.length⟩, ⟨cs, pos + w.length⟩) := by
  refine next_word (fun ds => .num (Text.Decimal.value ds)) ?_ hne hw hcs
  intro c cs hc
  obtain ⟨hk, hg⟩ := word_plain (Or.inr hc)
  rw [next?, skip_of_not (by simp [hg])]
  simp only [hk, hc, if_true]

theorem next_letters {w cs : List Char} (hne : w ≠ []) (hw : ∀ c ∈ w, c.isAlpha = true)
    (hcs : ∀ c ∈ cs.head?, c.isAlpha = false) (pos : Nat) : next? ⟨w ++ cs, pos⟩ =
      some (.ok ⟨.ident (String.ofList w), pos, w.length⟩, ⟨cs, pos + w.length⟩) := by
  refine next_word (fun cs => .ident (String.ofList cs)) ?_ hne hw hcs
  intro c cs hc
  obtain ⟨hk, hg⟩ := word_plain (Or.inl hc)
  rw [next?, skip_of_not (by simp [hg])]
  simp only [hk, Text.digit_of_letter hc, hc, if_true, Bool.false_eq_true, if_false]

theorem next_unknown {c : Char} (h : isUnknown c = true) (cs : List Char) (pos : Nat) :
    next? ⟨c :: cs, pos⟩ = some (.error (.unknownCharacter pos), ⟨[], pos⟩) := by
  simp only [isUnknown, Bool.and_eq_true, Bool.not_eq_true', Option.isNone_iff_eq_none] at h
  obtain ⟨⟨⟨hg, hk⟩, hd⟩, ha⟩ := h
  rw [next?, skip_of_not (by simp [hg])]
  simp only [hk, hd, ha, Bool.false_eq_true, if_false]

/-! ## The tokens after each beginning -/

@[simp] theorem tokens_nil (pos : Nat) : tokens ⟨[], pos⟩ = .ok [] := by
  rw [tokens_eq]; rfl

theorem tokens_gap {c : Char} (h : isGap c = true) (cs : List Char) (pos : Nat) :
    tokens ⟨c :: cs, pos⟩ = tokens ⟨cs, pos + 1⟩ := by
  rw [tokens_eq, next_gap h, ← tokens_eq]

theorem tokens_symbol {c : Char} {k : Kind} (h : Kind.ofChar? c = some k) (cs : List Char) (pos : Nat) :
    tokens ⟨c :: cs, pos⟩ = (tokens ⟨cs, pos + 1⟩).map (⟨k, pos, 1⟩ :: ·) := by
  rw [tokens_eq, next_symbol h]

theorem tokens_digits {w cs : List Char} (hne : w ≠ []) (hw : ∀ c ∈ w, c.isDigit = true)
    (hcs : ∀ c ∈ cs.head?, c.isDigit = false) (pos : Nat) :
    tokens ⟨w ++ cs, pos⟩ =
      (tokens ⟨cs, pos + w.length⟩).map (⟨.num (Text.Decimal.value w), pos, w.length⟩ :: ·) := by
  rw [tokens_eq, next_digits hne hw hcs]

theorem tokens_letters {w cs : List Char} (hne : w ≠ []) (hw : ∀ c ∈ w, c.isAlpha = true)
    (hcs : ∀ c ∈ cs.head?, c.isAlpha = false) (pos : Nat) :
    tokens ⟨w ++ cs, pos⟩ =
      (tokens ⟨cs, pos + w.length⟩).map (⟨.ident (String.ofList w), pos, w.length⟩ :: ·) := by
  rw [tokens_eq, next_letters hne hw hcs]

theorem tokens_unknown {c : Char} (h : isUnknown c = true) (cs : List Char) (pos : Nat) :
    tokens ⟨c :: cs, pos⟩ = .error (.unknownCharacter pos) := by
  rw [tokens_eq, next_unknown h]

/-! ## Taking a text apart -/

/-- Every text begins in one of the ways that have an equation. -/
@[elab_as_elim]
theorem reading_induction {motive : List Char → Prop} (nil : motive [])
    (gap : ∀ c cs, isGap c = true → motive cs → motive (c :: cs))
    (symbol : ∀ c k cs, Kind.ofChar? c = some k → motive cs → motive (c :: cs))
    (digits : ∀ w cs, w ≠ [] → (∀ c ∈ w, c.isDigit = true) → (∀ c ∈ cs.head?, c.isDigit = false) →
      motive cs → motive (w ++ cs))
    (letters : ∀ w cs, w ≠ [] → (∀ c ∈ w, c.isAlpha = true) → (∀ c ∈ cs.head?, c.isAlpha = false) →
      motive cs → motive (w ++ cs))
    (unknown : ∀ c cs, isUnknown c = true → motive (c :: cs)) (cs : List Char) : motive cs := by
  induction h : cs.length using Nat.strongRecOn generalizing cs with
  | _ n ih =>
    subst h
    cases cs with
    | nil => exact nil
    | cons c cs =>
      have tail : motive cs := ih cs.length (by simp) cs rfl
      by_cases hg : isGap c = true
      · exact gap c cs hg tail
      cases hk : Kind.ofChar? c with
      | some k => exact symbol c k cs hk tail
      | none =>
        by_cases hd : c.isDigit = true
        · obtain ⟨w, rest, he, hne, hw, hrest, hlt⟩ := Text.exists_word hd cs
          rw [he]
          exact digits w rest hne hw hrest (ih rest.length hlt rest rfl)
        by_cases ha : c.isAlpha = true
        · obtain ⟨w, rest, he, hne, hw, hrest, hlt⟩ := Text.exists_word ha cs
          rw [he]
          exact letters w rest hne hw hrest (ih rest.length hlt rest rfl)
        · exact unknown c cs (by simp [isUnknown, hg, hk, hd, ha])

/-! ## Cutting a text in two -/

/-- A word goes on from the end of `a` to the beginning of `b`. -/
def Joins (a b : List Char) : Prop :=
  ∃ x ∈ a.getLast?, ∃ y ∈ b.head?, x.isDigit = true ∧ y.isDigit = true ∨ x.isAlpha = true ∧ y.isAlpha = true

theorem joins_of_suffix {a b : List Char} (h : Joins a b) (w : List Char) : Joins (w ++ a) b := by
  obtain ⟨x, hx, hy⟩ := h
  refine ⟨x, ?_, hy⟩
  rw [Option.mem_def] at hx ⊢
  rw [List.getLast?_append, hx]
  rfl

theorem not_joins_symbol {c : Char} {k : Kind} (h : Kind.ofChar? c = some k) (a b : List Char) :
    ¬Joins a (c :: b) := by
  rintro ⟨x, -, y, hy, hxy⟩
  cases hy
  obtain ⟨-, hd, ha⟩ := symbol_plain h
  rw [hd, ha] at hxy
  simp at hxy

/-- If a word at the end of `a` does not go on in `b`, it does not go on in the text either. -/
theorem head_of_not_joins {p : Char → Bool} {w cs b : List Char} (hp : p = Char.isDigit ∨ p = Char.isAlpha)
    (hne : w ≠ []) (hw : ∀ c ∈ w, p c = true) (hcs : ∀ c ∈ cs.head?, p c = false) (h : ¬Joins (w ++ cs) b) :
    ∀ c ∈ (cs ++ b).head?, p c = false := by
  intro c hc
  cases cs with
  | cons d cs => exact hcs c hc
  | nil =>
    cases hpc : p c with
    | false => rfl
    | true =>
      have hl : w.getLast hne ∈ (w ++ []).getLast? := by
        rw [List.append_nil, Option.mem_def, List.getLast?_eq_some_getLast hne]
      have hlp := hw _ (List.getLast_mem hne)
      refine absurd ⟨_, hl, c, hc, ?_⟩ h
      rcases hp with rfl | rfl
      · exact Or.inl ⟨hlp, hpc⟩
      · exact Or.inr ⟨hlp, hpc⟩

theorem tokens_append {a b : List Char} (h : ¬Joins a b) (pos : Nat) :
    tokens ⟨a ++ b, pos⟩ = (do
      let ts ← tokens ⟨a, pos⟩
      let us ← tokens ⟨b, pos + a.length⟩
      pure (ts ++ us)) := by
  induction a using reading_induction generalizing pos with
  | nil => rw [tokens_nil]; cases hb : tokens ⟨b, pos⟩ <;> simp [hb] <;> rfl
  | gap c cs hc ih =>
    rw [List.cons_append, tokens_gap hc, tokens_gap hc, ih fun hj => h (joins_of_suffix hj [c]), List.length_cons,
      show pos + 1 + cs.length = pos + (cs.length + 1) by omega]
  | symbol c k cs hk ih =>
    rw [List.cons_append, tokens_symbol hk, tokens_symbol hk, ih fun hj => h (joins_of_suffix hj [c]),
      List.length_cons, show pos + 1 + cs.length = pos + (cs.length + 1) by omega]
    cases tokens ⟨cs, pos + 1⟩ with
    | error e => rfl
    | ok ts => cases tokens ⟨b, pos + (cs.length + 1)⟩ <;> rfl
  | digits w cs hne hw hcs ih =>
    rw [List.append_assoc, tokens_digits hne hw (head_of_not_joins (Or.inl rfl) hne hw hcs h),
      tokens_digits hne hw hcs, ih fun hj => h (joins_of_suffix hj w), List.length_append, ← Nat.add_assoc]
    cases tokens ⟨cs, pos + w.length⟩ with
    | error e => rfl
    | ok ts => cases tokens ⟨b, pos + w.length + cs.length⟩ <;> rfl
  | letters w cs hne hw hcs ih =>
    rw [List.append_assoc, tokens_letters hne hw (head_of_not_joins (Or.inr rfl) hne hw hcs h),
      tokens_letters hne hw hcs, ih fun hj => h (joins_of_suffix hj w), List.length_append, ← Nat.add_assoc]
    cases tokens ⟨cs, pos + w.length⟩ with
    | error e => rfl
    | ok ts => cases tokens ⟨b, pos + w.length + cs.length⟩ <;> rfl
  | unknown c cs hc => rw [List.cons_append, tokens_unknown hc, tokens_unknown hc]; rfl

/-! ## Where the reading stops -/

theorem items_of_next {l after : Lexer} {item : Except LexError Token} (h : l.next? = some (item, after)) :
    l.items = item :: after.items := by
  rw [items]
  split
  · rename_i hn
    rw [h] at hn
    cases hn
  · rename_i hn
    rw [h] at hn
    cases hn
    rfl

theorem items_of_end {l : Lexer} (h : l.next? = none) : l.items = [] := by
  rw [items]
  split
  · rfl
  · rename_i hn
    rw [h] at hn
    cases hn

theorem items_gap {c : Char} (h : isGap c = true) (cs : List Char) (pos : Nat) :
    items ⟨c :: cs, pos⟩ = items ⟨cs, pos + 1⟩ := by
  rw [items, items, next_gap h]

/-- A text of known characters is read to its end. -/
theorem items_of_known {cs : List Char} (h : ∀ c ∈ cs, isUnknown c = false) (pos : Nat) :
    ∃ ts : List Token, items ⟨cs, pos⟩ = ts.map .ok := by
  induction cs using reading_induction generalizing pos with
  | nil => exact ⟨[], items_of_end rfl⟩
  | gap c cs hc ih =>
    rw [items_gap hc]
    exact ih (List.forall_mem_cons.mp h).2 (pos + 1)
  | symbol c k cs hk ih =>
    obtain ⟨ts, hts⟩ := ih (List.forall_mem_cons.mp h).2 (pos + 1)
    exact ⟨⟨k, pos, 1⟩ :: ts, by rw [items_of_next (next_symbol hk cs pos), hts, List.map_cons]⟩
  | digits w cs hne hw hcs ih =>
    obtain ⟨ts, hts⟩ := ih (List.forall_mem_append.mp h).2 (pos + w.length)
    exact ⟨_ :: ts, by rw [items_of_next (next_digits hne hw hcs pos), hts, List.map_cons]⟩
  | letters w cs hne hw hcs ih =>
    obtain ⟨ts, hts⟩ := ih (List.forall_mem_append.mp h).2 (pos + w.length)
    exact ⟨_ :: ts, by rw [items_of_next (next_letters hne hw hcs pos), hts, List.map_cons]⟩
  | unknown c cs hc =>
    rw [(List.forall_mem_cons.mp h).1] at hc
    cases hc

theorem not_joins_unknown {c : Char} (h : isUnknown c = true) (a b : List Char) : ¬Joins a (c :: b) := by
  rintro ⟨x, -, y, hy, hxy⟩
  cases hy
  simp only [isUnknown, Bool.and_eq_true, Bool.not_eq_true'] at h
  rw [h.1.2, h.2] at hxy
  simp at hxy

/-- A character that is not known ends the reading, whatever comes after it. -/
theorem items_before_unknown {c : Char} (hc : isUnknown c = true) (more : List Char) {cs : List Char}
    (h : ∀ x ∈ cs, isUnknown x = false) (pos : Nat) : items ⟨cs ++ c :: more, pos⟩ =
      items ⟨cs, pos⟩ ++ [.error (.unknownCharacter (pos + cs.length))] := by
  have hjoins : ∀ a, ¬Joins a (c :: more) := fun a => not_joins_unknown hc a more
  induction cs using reading_induction generalizing pos with
  | nil =>
    rw [List.nil_append, items_of_next (next_unknown hc more pos), items_of_end rfl]
    rfl
  | gap d cs hd ih =>
    rw [List.cons_append, items_gap hd, items_gap hd, ih (List.forall_mem_cons.mp h).2, List.length_cons,
      show pos + 1 + cs.length = pos + (cs.length + 1) by omega]
  | symbol d k cs hk ih =>
    rw [List.cons_append, items_of_next (next_symbol hk (cs ++ c :: more) pos), items_of_next (next_symbol hk cs pos),
      ih (List.forall_mem_cons.mp h).2, List.length_cons, List.cons_append,
      show pos + 1 + cs.length = pos + (cs.length + 1) by omega]
  | digits w cs hne hw hcs ih =>
    have hnext := head_of_not_joins (Or.inl rfl) hne hw hcs (hjoins (w ++ cs))
    rw [List.append_assoc, items_of_next (next_digits hne hw hnext pos), items_of_next (next_digits hne hw hcs pos),
      ih (List.forall_mem_append.mp h).2, List.length_append, List.cons_append, Nat.add_assoc]
  | letters w cs hne hw hcs ih =>
    have hnext := head_of_not_joins (Or.inr rfl) hne hw hcs (hjoins (w ++ cs))
    rw [List.append_assoc, items_of_next (next_letters hne hw hnext pos), items_of_next (next_letters hne hw hcs pos),
      ih (List.forall_mem_append.mp h).2, List.length_append, List.cons_append, Nat.add_assoc]
  | unknown d cs hd =>
    rw [(List.forall_mem_cons.mp h).1] at hd
    cases hd

theorem known_or_first_unknown (cs : List Char) : (∀ c ∈ cs, isUnknown c = false) ∨
    ∃ before c after, cs = before ++ c :: after ∧ (∀ x ∈ before, isUnknown x = false) ∧ isUnknown c = true := by
  cases hf : cs.find? isUnknown with
  | none => exact Or.inl fun c hc => by simpa using List.find?_eq_none.mp hf c hc
  | some c =>
    obtain ⟨hc, before, after, he, hbefore⟩ := List.find?_eq_some_iff_append.mp hf
    exact Or.inr ⟨before, c, after, he, fun x hx => by simpa using hbefore x hx, hc⟩

@[simp] theorem map_m_ok (ts : List Token) : (ts.map Except.ok).mapM id = (.ok ts : Except LexError (List Token)) := by
  rw [List.mapM_map]
  exact List.mapM_pure.trans (congrArg Except.ok (List.map_id ts))

theorem tokens_of_items {l : Lexer} {ts : List Token} (h : l.items = ts.map .ok) : l.tokens = .ok ts := by
  rw [tokens, h, map_m_ok]

theorem tokens_of_items_error {l : Lexer} {ts : List Token} {e : LexError} (h : l.items = ts.map .ok ++ [.error e]) :
    l.tokens = .error e := by
  rw [tokens, h, List.mapM_append, map_m_ok]
  rfl

/-- The items of a text are its tokens, or those of the text before the first unknown
    character and the error there. -/
theorem items_cases (cs : List Char) (pos : Nat) :
    (∃ ts, (∀ c ∈ cs, isUnknown c = false) ∧ items ⟨cs, pos⟩ = ts.map .ok ∧ tokens ⟨cs, pos⟩ = .ok ts) ∨
      ∃ before c after ts, cs = before ++ c :: after ∧ (∀ x ∈ before, isUnknown x = false) ∧ isUnknown c = true ∧
        tokens ⟨before, pos⟩ = .ok ts ∧
        items ⟨cs, pos⟩ = ts.map .ok ++ [.error (.unknownCharacter (pos + before.length))] ∧
        tokens ⟨cs, pos⟩ = .error (.unknownCharacter (pos + before.length)) := by
  rcases known_or_first_unknown cs with h | ⟨before, c, after, rfl, hbefore, hc⟩
  · obtain ⟨ts, hts⟩ := items_of_known h pos
    exact Or.inl ⟨ts, h, hts, tokens_of_items hts⟩
  · obtain ⟨ts, hts⟩ := items_of_known hbefore pos
    have hitems := items_before_unknown hc after hbefore pos
    rw [hts] at hitems
    exact Or.inr ⟨before, c, after, ts, rfl, hbefore, hc, tokens_of_items hts, hitems, tokens_of_items_error hitems⟩

theorem tokens_ok_iff {cs : List Char} {pos : Nat} :
    (∃ ts, tokens ⟨cs, pos⟩ = .ok ts) ↔ ∀ c ∈ cs, isUnknown c = false := by
  rcases items_cases cs pos with ⟨ts, hknown, -, hts⟩ | ⟨before, c, after, -, rfl, -, hc, -, -, herror⟩
  · exact iff_of_true ⟨ts, hts⟩ hknown
  · refine iff_of_false ?_ fun h => ?_
    · rintro ⟨ts, hts⟩
      rw [herror] at hts
      cases hts
    · rw [h c (by simp)] at hc
      cases hc

/-! ## Moving a text -/

/-- The token of a text that begins `k` bytes later. -/
def shiftToken (k : Nat) (t : Token) : Token := { t with index := t.index + k }

def shiftError (k : Nat) : LexError → LexError
  | .unknownCharacter index => .unknownCharacter (index + k)

/-- What is read off a text that begins `k` bytes later. -/
def shiftRead (k : Nat) : Except LexError (List Token) → Except LexError (List Token)
  | .ok ts => .ok (ts.map (shiftToken k))
  | .error e => .error (shiftError k e)

theorem shift_map (k : Nat) (t : Token) (r : Except LexError (List Token)) :
    shiftRead k (r.map (t :: ·)) = (shiftRead k r).map (shiftToken k t :: ·) := by
  cases r <;> rfl

theorem tokens_shift (cs : List Char) (pos k : Nat) :
    tokens ⟨cs, pos + k⟩ = shiftRead k (tokens ⟨cs, pos⟩) := by
  induction cs using reading_induction generalizing pos with
  | nil => rw [tokens_nil, tokens_nil]; rfl
  | gap c cs hc ih => rw [tokens_gap hc, tokens_gap hc, ← ih]; congr 2; omega
  | symbol c kind cs hk ih =>
    rw [tokens_symbol hk, tokens_symbol hk, shift_map, ← ih, show pos + k + 1 = pos + 1 + k by omega]
    rfl
  | digits w cs hne hw hcs ih =>
    rw [tokens_digits hne hw hcs, tokens_digits hne hw hcs, shift_map, ← ih,
      show pos + k + w.length = pos + w.length + k by omega]
    rfl
  | letters w cs hne hw hcs ih =>
    rw [tokens_letters hne hw hcs, tokens_letters hne hw hcs, shift_map, ← ih,
      show pos + k + w.length = pos + w.length + k by omega]
    rfl
  | unknown c cs hc => rw [tokens_unknown hc, tokens_unknown hc]; rfl

end Lexer

end Reckon.Token
