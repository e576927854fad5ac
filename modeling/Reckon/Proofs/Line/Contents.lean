/-
  Reckon.Proofs.Line.Contents — what a text, its tokens and its formula have in common.

  The names in a text are those among its tokens (`ident_mem_iff`), and its symbols are the
  other tokens but the numbers, in the same order (`symbols_of_laid`). So the parentheses
  of the formula match exactly if those in the text do, where nothing has to be read
  (`balanced_iff_nested`).
-/

import Reckon.Proofs.Formula.Matching
import Reckon.Proofs.Text.Occurrence
import Reckon.Proofs.Token.Tiling

namespace Reckon

open Token (Kind isGap)
open Token.Lexer (Laid Joins)
open Text (NameIn Severed)

variable {cs w : List Char} {k : Kind} {pos : Nat} {ts : List Token}

/-! ## Names -/

theorem severed_of_not_joins {a b : List Char} (h : ¬Joins a b) : Severed a b := by
  intro x hx y hy hxa
  by_contra hya
  exact h ⟨x, hx, y, hy, Or.inr ⟨hxa, by simpa using hya⟩⟩

theorem name_in_spelled_iff (h : Token.Spells w k) {name : String} : NameIn name.toList w ↔ k = .ident name := by
  have plain : (∀ c ∈ w, c.isAlpha = false) → k ≠ .ident name → (NameIn name.toList w ↔ k = .ident name) :=
    fun hplain hk => iff_of_false (Text.not_name_in_of_no_letter hplain) hk
  cases h with
  | op o => exact plain (by cases o <;> simp [Operator.symbol]) nofun
  | opening | closing | equals => exact plain (by simp) nofun
  | number hw => exact plain (fun c hc => Text.letter_of_digit (hw.2 c hc)) nofun
  | name hw =>
    rw [Text.name_in_letters_iff hw, Kind.ident.injEq, ← String.toList_inj, String.toList_ofList, eq_comm]

/-- The names in a text are the names among its tokens. -/
theorem ident_mem_iff (h : Laid pos cs ts) {name : String} :
    Kind.ident name ∈ ts.map (·.kind) ↔ NameIn name.toList cs := by
  have gaps : ∀ {g : List Char}, (∀ c ∈ g, isGap c = true) → ∀ c ∈ g, c.isAlpha = false :=
    fun hg c hc => (Token.gap_plain (hg c hc)).2
  induction h with
  | done pos hg => exact iff_of_false (by simp) (Text.not_name_in_of_no_letter (gaps hg))
  | @token g w cs pos k ts hg hw hcs hrest ih =>
    have hlast : ∀ c ∈ g.getLast?, c.isAlpha = false := fun c hc => gaps hg c (List.mem_of_getLast? hc)
    rw [Text.name_in_append_iff (Text.severed_of_last hlast _), Text.name_in_append_iff (severed_of_not_joins hcs),
      or_iff_right (Text.not_name_in_of_no_letter (gaps hg)), name_in_spelled_iff hw, List.map_cons, List.mem_cons]
    exact or_congr eq_comm ih

/-! ## Symbols -/

/-- Neither a number nor a name. -/
def isSymbol : Kind → Bool
  | .num _ | .ident _ => false
  | .op _ | .opening | .closing | .equals => true

theorem symbols_spelled (h : Token.Spells w k) : w.filterMap Kind.ofChar? = [k].filter isSymbol := by
  have word : (∀ c ∈ w, c.isAlpha = true ∨ c.isDigit = true) → w.filterMap Kind.ofChar? = [] :=
    fun hw => List.filterMap_eq_nil_iff.mpr fun c hc => (Token.word_plain (hw c hc)).1
  cases h with
  | op o => cases o <;> rfl
  | opening | closing | equals => rfl
  | number hw => exact word fun c hc => Or.inr (hw.2 c hc)
  | name hw => exact word fun c hc => Or.inl (hw.2 c hc)

/-- The symbols of a text are the tokens that are neither numbers nor names, in their order. -/
theorem symbols_of_laid (h : Laid pos cs ts) : cs.filterMap Kind.ofChar? = (ts.map (·.kind)).filter isSymbol := by
  have gaps : ∀ {g : List Char}, (∀ c ∈ g, isGap c = true) → g.filterMap Kind.ofChar? = [] := by
    intro g hg
    refine List.filterMap_eq_nil_iff.mpr ?_
    intro c hc
    cases hk : Kind.ofChar? c with
    | none => rfl
    | some k =>
      have := (Token.symbol_plain hk).1
      rw [hg c hc] at this
      cases this
  induction h with
  | done pos hg => exact gaps hg
  | @token g w cs pos k ts hg hw hcs hrest ih =>
    rw [List.filterMap_append, gaps hg, List.nil_append, List.filterMap_append, symbols_spelled hw, ih,
      ← List.filter_append, List.singleton_append, List.map_cons]

theorem equals_mem_iff (h : Laid pos cs ts) : Kind.equals ∈ ts.map (·.kind) ↔ '=' ∈ cs := by
  have hsymbols : Kind.equals ∈ ts.map (·.kind) ↔ Kind.equals ∈ cs.filterMap Kind.ofChar? := by
    rw [symbols_of_laid h, List.mem_filter]
    simp [isSymbol]
  rw [hsymbols, List.mem_filterMap]
  constructor
  · rintro ⟨c, hc, hk⟩
    rcases Token.symbol_cases hk with ⟨o, he, -⟩ | ⟨he, -⟩ | ⟨he, -⟩ | ⟨-, rfl⟩
    · cases he
    · cases he
    · cases he
    · exact hc
  · intro hm
    exact ⟨'=', hm, rfl⟩

/-! ## Parentheses -/

/-- `o` opens groups in the list and `c` closes them: no beginning has more that close than
    open, and in all there are as many of both. -/
def Nested {α : Type} [BEq α] (o c : α) (l : List α) : Prop :=
  (∀ p, p <+: l → p.count c ≤ p.count o) ∧ l.count c = l.count o

section

variable {α : Type} [BEq α] [LawfulBEq α] {f : α → Option Bool}

theorem count_marks {x : α} {b : Bool} (h : ∀ a, f a = some b ↔ a = x) (l : List α) :
    l.count x = (l.filterMap f).count b := by
  rw [List.count_filterMap, List.count]
  refine List.countP_congr fun a _ => ?_
  simp only [beq_iff_eq]
  exact (h a).symm

/-- All but what opens or closes a group can be left out. -/
theorem nested_iff_marks {o c : α} (ho : ∀ a, f a = some true ↔ a = o) (hc : ∀ a, f a = some false ↔ a = c)
    (l : List α) : Nested o c l ↔ Nested true false (l.filterMap f) := by
  unfold Nested
  rw [count_marks ho, count_marks hc]
  refine and_congr_left fun _ => ?_
  constructor
  · intro h p hp
    obtain ⟨q, hq, rfl⟩ := List.prefix_filterMap_iff.mp hp
    rw [← count_marks ho, ← count_marks hc]
    exact h q hq
  · intro h p hp
    rw [count_marks ho, count_marks hc]
    exact h _ (hp.filterMap f)

end

/-- Whether a token opens a group, or closes one. -/
def opens? : Kind → Option Bool
  | .opening => some true
  | .closing => some false
  | .num _ | .ident _ | .op _ | .equals => none

def charOpens? (c : Char) : Option Bool := (Kind.ofChar? c).bind opens?

def symbolOpens? : Formula.Symbol → Option Bool
  | .opening => some true
  | .closing => some false
  | .num _ | .op _ => none

theorem opens_iff (k : Kind) : (opens? k = some true ↔ k = .opening) ∧ (opens? k = some false ↔ k = .closing) := by
  cases k <;> simp [opens?]

theorem symbol_opens_iff (x : Formula.Symbol) :
    (symbolOpens? x = some true ↔ x = .opening) ∧ (symbolOpens? x = some false ↔ x = .closing) := by
  cases x <;> simp [symbolOpens?]

theorem char_opens_iff (c : Char) : (charOpens? c = some true ↔ c = '(') ∧ (charOpens? c = some false ↔ c = ')') := by
  rw [charOpens?]
  cases hk : Kind.ofChar? c with
  | none =>
    refine ⟨iff_of_false nofun ?_, iff_of_false nofun ?_⟩
    · rintro rfl
      cases hk
    · rintro rfl
      cases hk
  | some k =>
    rcases Token.symbol_cases hk with ⟨o, rfl, rfl⟩ | ⟨rfl, rfl⟩ | ⟨rfl, rfl⟩ | ⟨rfl, rfl⟩
    · cases o <;> simp [opens?, Operator.symbol]
    all_goals simp [opens?]

theorem opens_of_laid (h : Laid pos cs ts) : cs.filterMap charOpens? = (ts.map (·.kind)).filterMap opens? := by
  have hsymbols : ∀ ks : List Kind, (ks.filter isSymbol).filterMap opens? = ks.filterMap opens? := by
    intro ks
    rw [List.filterMap_filter]
    congr 1
    funext k
    cases k <;> rfl
  rw [← hsymbols, ← symbols_of_laid h, List.filterMap_filterMap]
  rfl

theorem opens_of_symbols {vars : Variables} {ks : List Kind} {xs : List Formula.Symbol}
    (h : symbolsOf vars ks = .ok xs) : xs.filterMap symbolOpens? = ks.filterMap opens? := by
  induction ks generalizing xs with
  | nil =>
    cases h
    rfl
  | cons k ks ih =>
    obtain ⟨x, ys, hx, hys, rfl⟩ := symbols_of_cons_eq_ok h
    have hhead : symbolOpens? x = opens? k := by
      cases k with
      | ident name =>
        simp only [Formula.symbolOf] at hx
        split at hx <;> cases hx
        rfl
      | equals => cases hx
      | num | op | opening | closing =>
        cases hx
        rfl
    rw [List.filterMap_cons, List.filterMap_cons, hhead, ih hys]

/-- The parentheses of a formula match if those of the text do. -/
theorem balanced_iff_nested {vars : Variables} {xs : List Formula.Symbol} (h : Laid pos cs ts)
    (hx : symbolsOf vars (ts.map (·.kind)) = .ok xs) : Formula.Balanced xs ↔ Nested '(' ')' cs := by
  have hmarks : xs.filterMap symbolOpens? = cs.filterMap charOpens? := (opens_of_symbols hx).trans (opens_of_laid h).symm
  have hsymbols := nested_iff_marks (fun x => (symbol_opens_iff x).1) (fun x => (symbol_opens_iff x).2) xs
  have hchars := nested_iff_marks (fun c => (char_opens_iff c).1) (fun c => (char_opens_iff c).2) cs
  rw [hchars, ← hmarks, ← hsymbols]
  exact Formula.balanced_iff_matched xs

/-- As many tokens open groups, and as many close them, as characters do. -/
theorem count_parens (h : Laid pos cs ts) : (ts.map (·.kind)).count .opening = cs.count '(' ∧
    (ts.map (·.kind)).count .closing = cs.count ')' := by
  rw [count_marks fun k => (opens_iff k).1, count_marks fun k => (opens_iff k).2, ← opens_of_laid h,
    ← count_marks fun c => (char_opens_iff c).1, ← count_marks fun c => (char_opens_iff c).2]
  exact ⟨rfl, rfl⟩

end Reckon
