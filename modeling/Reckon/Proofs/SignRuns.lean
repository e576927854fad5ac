/-
  Reckon.Proofs.SignRuns — a run of signs counts for the parity of its minuses.

  Before any symbols at all and after any, matched or not, another run with as many minuses
  modulo 2 can stand in the place of a run of signs (`Formula.settle_signs_run`). The run
  need not be all of the signs that stand there; the whole run that it is part of has to
  be one whose parity its count tells.

  In a line the signs may have gaps between them (`SignText`). They are tokens of their own
  whatever touches them, clash with nothing and dangle at an end of the line as any one
  sign does, so the checks do not see which signs they are (`kinds_around_signs`). The runs
  of the formula are signs and gaps in the text (`text_of_signs`), so fewer than `2 ^ 31`
  minuses wherever only those stand are few enough (`SignsCountable`).
  `signs_by_parity` puts the two together.
-/

import Reckon.Proofs.Congruence
import Reckon.Proofs.Formula.Nesting
import Reckon.Proofs.Token.Tiling

namespace Reckon

/-! ## Formulas -/

namespace Formula

/-- A formula without the signs that it ends with. -/
theorem exists_signs_last (l : List Symbol) : ∃ (a : List Symbol) (run : List Operator), l = a ++ run.map .op ∧
    (∀ o ∈ run, o.isSign = true) ∧ ∀ x ∈ a.getLast?, x.endsRun = true := by
  induction l using List.reverseRecOn with
  | nil => exact ⟨[], [], rfl, by simp, by simp⟩
  | append_singleton l x ih =>
    by_cases hx : x.endsRun = true
    · exact ⟨l ++ [x], [], by simp, by simp, by simpa using hx⟩
    · obtain ⟨o, rfl, ho⟩ := sign_of_not_ends hx
      obtain ⟨a, run, rfl, hrun, ha⟩ := ih
      exact ⟨a, run ++ [o], by simp, by simpa [or_imp, forall_and] using ⟨hrun, ho⟩, ha⟩

/-- A formula without the signs that it begins with. -/
theorem exists_signs_first (l : List Symbol) : ∃ (run : List Operator) (b : List Symbol), l = run.map .op ++ b ∧
    (∀ o ∈ run, o.isSign = true) ∧ ∀ x ∈ b.head?, x.endsRun = true := by
  induction l with
  | nil => exact ⟨[], [], rfl, by simp, by simp⟩
  | cons x l ih =>
    by_cases hx : x.endsRun = true
    · exact ⟨[], x :: l, rfl, by simp, by simpa using hx⟩
    · obtain ⟨o, rfl, ho⟩ := sign_of_not_ends hx
      obtain ⟨run, b, rfl, hrun, hb⟩ := ih
      exact ⟨o :: run, b, rfl, List.forall_mem_cons.mpr ⟨ho, hrun⟩, hb⟩

/-- Nothing is held back after what ends a run. -/
theorem base_after {a : List Symbol} (ha : ∀ x ∈ a.getLast?, x.endsRun = true) :
    (Settling.start.after a).place.base = (Settling.start.after a).place := by
  rcases a.eq_nil_or_concat with rfl | ⟨a, x, rfl⟩
  · rfl
  · rw [List.concat_eq_append, List.getLast?_concat] at ha
    rw [List.concat_eq_append, Settling.after_append]
    have hx : x.endsRun = true := ha x rfl
    cases x with
    | op o => simp [Settling.after, ends_run_op.mp hx, Place.base]
    | num | opening | closing => rfl

/-- Where a run ends, no more of its count matters than the sign. -/
theorem settle_hold_congr {p : Place} (hp : p.base = p) {m n : Int32} (h : signOf m = signOf n) (gs : List Bool)
    {l : List Symbol} (hl : ∀ x ∈ l.head?, x.endsRun = true) :
    Settling.settle ⟨p.hold m, gs⟩ l = Settling.settle ⟨p.hold n, gs⟩ l := by
  have hheld : (p.hold m).held = (p.hold n).held := by
    cases p with
    | after | before => simp [Place.hold, Place.held, h]
    | binary | unary => cases hp
  cases l with
  | nil => exact hheld
  | cons x l =>
    have hread : Settling.read ⟨p.hold m, gs⟩ x = Settling.read ⟨p.hold n, gs⟩ x := by
      cases x with
      | op o => rw [Settling.read_operator (ends_run_op.mp (hl _ rfl)), Settling.read_operator (ends_run_op.mp (hl _ rfl)),
          hheld]
      | closing => simp only [Settling.read, hheld]
      | num v =>
        cases p with
        | after | before => simp [Settling.read, Place.hold, Place.number, Place.held, h]
        | binary | unary => cases hp
      | opening =>
        cases p with
        | after | before => simp [Settling.read, Place.hold, Place.opened, Place.negates, Place.held, h]
        | binary | unary => cases hp
    rw [Settling.settle_cons, Settling.settle_cons, hread]

/-- Two whole runs of one sign. -/
theorem settle_signs_counted {r₁ r₂ : List Operator} (h₁ : SignRun r₁) (h₂ : SignRun r₂) (h : counted r₁ = counted r₂)
    {a b : List Symbol} (ha : ∀ x ∈ a.getLast?, x.endsRun = true) (hb : ∀ x ∈ b.head?, x.endsRun = true) :
    settleSigns (a ++ r₁.map .op ++ b) = settleSigns (a ++ r₂.map .op ++ b) := by
  obtain ⟨hw₁, ha₁⟩ := Settling.read_run h₁ (Settling.start.after a)
  obtain ⟨hw₂, ha₂⟩ := Settling.read_run h₂ (Settling.start.after a)
  have hsign : signOf (minuses r₁) = signOf (minuses r₂) := by rw [sign_of_minuses, sign_of_minuses, h]
  have hrest := settle_hold_congr (base_after ha) hsign (Settling.start.after a).groups hb
  rw [settle_signs_eq, settle_signs_eq, List.append_assoc, List.append_assoc, Settling.settle_append,
    Settling.settle_append, Settling.settle_append, Settling.settle_append, hw₁, hw₂, ha₁, ha₂, hrest]

/-- A run of signs counts by the parity of its minuses only, as far as this can be told from
    the count of the whole run that it is part of. -/
theorem settle_signs_run {r₁ r₂ : List Operator} (h₁ : SignRun r₁) (h₂ : SignRun r₂)
    (h : r₁.count .sub % 2 = r₂.count .sub % 2) {p s : List Symbol}
    (hp₁ : ∀ run, IsRun run (p ++ r₁.map .op ++ s) → KeepsParity (run.count .sub))
    (hp₂ : ∀ run, IsRun run (p ++ r₂.map .op ++ s) → KeepsParity (run.count .sub)) :
    settleSigns (p ++ r₁.map .op ++ s) = settleSigns (p ++ r₂.map .op ++ s) := by
  obtain ⟨a, u, rfl, hu, ha⟩ := exists_signs_last p
  obtain ⟨v, b, rfl, hv, hb⟩ := exists_signs_first s
  have whole : ∀ r : List Operator,
      a ++ u.map .op ++ r.map .op ++ (v.map .op ++ b) = a ++ (u ++ r ++ v).map .op ++ b := by simp
  have hrun : ∀ r : List Operator, SignRun r → SignRun (u ++ r ++ v) := by
    intro r hr
    refine ⟨by simp [hr.1], ?_⟩
    simp only [List.forall_mem_append]
    exact ⟨⟨hu, hr.2⟩, hv⟩
  have hparity : parity (u ++ r₁ ++ v) = parity (u ++ r₂ ++ v) := by
    have hcount : (u ++ r₁ ++ v).count .sub % 2 = (u ++ r₂ ++ v).count .sub % 2 := by
      simp only [List.count_append]
      omega
    rw [parity, parity, hcount]
  rw [whole] at hp₁ hp₂ ⊢
  rw [whole]
  have hcounted₁ := (counted_eq_parity_iff _).mpr (hp₁ _ ⟨hrun r₁ h₁, a, b, rfl, ha, hb⟩)
  have hcounted₂ := (counted_eq_parity_iff _).mpr (hp₂ _ ⟨hrun r₂ h₂, a, b, rfl, ha, hb⟩)
  exact settle_signs_counted (hrun r₁ h₁) (hrun r₂ h₂) (hcounted₁.trans (hparity.trans hcounted₂.symm)) ha hb

end Formula

open Token (Kind isGap)
open Token.Lexer (tokens)

variable {limits : Limits} {vars : Variables}

/-! ## Tokens -/

def IsSign (c : Char) : Prop := c = '+' ∨ c = '-'

/-- Signs with gaps between them, and a sign at either end. -/
structure SignText (r : List Char) : Prop where
  chars : ∀ c ∈ r, IsSign c ∨ isGap c = true
  first : ∃ c ∈ r.head?, IsSign c
  last : ∃ c ∈ r.getLast?, IsSign c

/-- The operators in a text. -/
def operatorsIn (r : List Char) : List Operator := r.filterMap Operator.ofChar?

theorem operator_of_sign {c : Char} (h : IsSign c) :
    ∃ o, Operator.ofChar? c = some o ∧ Kind.ofChar? c = some (.op o) ∧ o.isSign = true ∧ (o = .sub ↔ c = '-') := by
  rcases h with rfl | rfl
  · exact ⟨.add, rfl, rfl, rfl, by decide⟩
  · exact ⟨.sub, rfl, rfl, rfl, by decide⟩

theorem sign_plain {c : Char} (h : IsSign c) :
    (c.isDigit = false ∧ c.isAlpha = false) ∧ Text.isBlank c = false := by
  rcases h with rfl | rfl <;> decide

theorem operator_of_gap {c : Char} (h : isGap c = true) : Operator.ofChar? c = none ∧ c ≠ '-' := by
  simp only [isGap, Bool.or_eq_true, beq_iff_eq] at h
  rcases h with ((rfl | rfl) | rfl) | rfl <;> decide

namespace SignText

variable {r : List Char}

theorem ne_nil (h : SignText r) : r ≠ [] := by
  obtain ⟨c, hc, -⟩ := h.first
  exact List.ne_nil_of_mem (List.mem_of_head? hc)

theorem trimmed (h : SignText r) : Text.Trimmed r := by
  constructor
  · obtain ⟨c, hc, hsign⟩ := h.first
    intro x hx
    cases (Option.mem_def.mp hc).symm.trans hx
    exact (sign_plain hsign).2
  · obtain ⟨d, hd, hsign⟩ := h.last
    intro x hx
    cases (Option.mem_def.mp hd).symm.trans hx
    exact (sign_plain hsign).2

theorem not_mem_equals (h : SignText r) : '=' ∉ r := by
  intro hm
  rcases h.chars '=' hm with (h | h) | h <;> exact absurd h (by decide)

end SignText

theorem tokens_signs {r : List Char} (h : ∀ c ∈ r, IsSign c ∨ isGap c = true) (pos : Nat) :
    ∃ ts, tokens ⟨r, pos⟩ = .ok ts ∧ ts.map (·.kind) = (operatorsIn r).map .op := by
  induction r generalizing pos with
  | nil => exact ⟨[], Token.Lexer.tokens_nil pos, rfl⟩
  | cons c r ih =>
    obtain ⟨hc, hr⟩ := List.forall_mem_cons.mp h
    obtain ⟨ts, hts, hkinds⟩ := ih hr (pos + 1)
    rcases hc with hc | hc
    · obtain ⟨o, ho, hk, -, -⟩ := operator_of_sign hc
      refine ⟨⟨.op o, pos, 1⟩ :: ts, by rw [Token.Lexer.tokens_symbol hk, hts]; rfl, ?_⟩
      rw [operatorsIn, List.filterMap_cons_some ho, List.map_cons, List.map_cons, hkinds, operatorsIn]
    · refine ⟨ts, by rw [Token.Lexer.tokens_gap hc, hts], ?_⟩
      rw [operatorsIn, List.filterMap_cons_none (operator_of_gap hc).1, hkinds, operatorsIn]

theorem count_signs_in {r : List Char} (h : ∀ c ∈ r, IsSign c ∨ isGap c = true) :
    (∀ o ∈ operatorsIn r, o.isSign = true) ∧ (operatorsIn r).count .sub = r.count '-' := by
  induction r with
  | nil => exact ⟨by simp [operatorsIn], rfl⟩
  | cons c r ih =>
    obtain ⟨hc, hr⟩ := List.forall_mem_cons.mp h
    obtain ⟨hsigns, hcount⟩ := ih hr
    rcases hc with hc | hc
    · obtain ⟨o, ho, -, hsign, hminus⟩ := operator_of_sign hc
      rw [operatorsIn, List.filterMap_cons_some ho]
      refine ⟨List.forall_mem_cons.mpr ⟨hsign, hsigns⟩, ?_⟩
      rw [List.count_cons, List.count_cons, ← hcount, operatorsIn]
      simp [hminus]
    · obtain ⟨ho, hminus⟩ := operator_of_gap hc
      rw [operatorsIn, List.filterMap_cons_none ho, List.count_cons_of_ne hminus]
      exact ⟨hsigns, hcount⟩

theorem sign_run_of_text {r : List Char} (h : SignText r) :
    Formula.SignRun (operatorsIn r) ∧ (operatorsIn r).count .sub = r.count '-' := by
  obtain ⟨hsigns, hcount⟩ := count_signs_in h.chars
  refine ⟨⟨?_, hsigns⟩, hcount⟩
  obtain ⟨c, hc, hsign⟩ := h.first
  obtain ⟨o, ho, -, -, -⟩ := operator_of_sign hsign
  exact List.ne_nil_of_mem (List.mem_filterMap.mpr ⟨c, List.mem_of_head? hc, ho⟩)

/-! ## How long runs get -/

/-- Signs with any gaps between them stand nowhere in the text with more minuses than can be
    counted. -/
def SignsCountable (text : List Char) : Prop :=
  ∀ r, r <:+: text → (∀ c ∈ r, IsSign c ∨ isGap c = true) → r.count '-' < 2 ^ 31

theorem signs_countable_of_length {text : List Char} (h : text.length < 2 ^ 31) : SignsCountable text := by
  intro r hr _
  have hcount : r.count '-' ≤ r.length := List.count_le_length
  have hlength := hr.length_le
  omega

theorem SignsCountable.of_infix {part text : List Char} (h : SignsCountable text) (hp : part <:+: text) : SignsCountable part :=
  fun r hr => h r (hr.trans hp)

theorem sign_of_operator {o : Operator} (h : o.isSign = true) : IsSign o.symbol := by
  cases o with
  | add => exact Or.inl rfl
  | sub => exact Or.inr rfl
  | mul | div | pow => cases h

theorem operator_of_symbol_of {k : Kind} {o : Operator} (h : Formula.symbolOf vars k = .ok (.op o)) : k = .op o := by
  cases k with
  | ident name =>
    simp only [Formula.symbolOf] at h
    split at h <;> cases h
  | num | opening | closing | equals => cases h
  | op p =>
    cases h
    rfl

/-- The text of the signs that a formula begins with. -/
theorem text_of_first_signs {cs : List Char} {pos : Nat} {ts : List Token} (h : Token.Lexer.Laid pos cs ts)
    {xs : List Formula.Symbol} (hx : symbolsOf vars (ts.map (·.kind)) = .ok xs) {run : List Operator}
    (hrun : ∀ o ∈ run, o.isSign = true) (hr : run.map .op <+: xs) :
    ∃ r, r <+: cs ∧ (∀ c ∈ r, IsSign c ∨ isGap c = true) ∧ r.count '-' = run.count .sub := by
  induction h generalizing xs run with
  | done pos hg =>
    cases hx
    obtain rfl := List.map_eq_nil_iff.mp (List.prefix_nil.mp hr)
    exact ⟨[], List.nil_prefix, by simp, rfl⟩
  | @token g w cs pos k ts hg hw hcs _ ih =>
    cases run with
    | nil => exact ⟨[], List.nil_prefix, by simp, rfl⟩
    | cons o run =>
      obtain ⟨ho, hrun⟩ := List.forall_mem_cons.mp hrun
      obtain ⟨x, ys, hk, hys, rfl⟩ := symbols_of_cons_eq_ok hx
      rw [List.map_cons, List.cons_prefix_cons] at hr
      obtain ⟨rfl, hr⟩ := hr
      obtain rfl : k = .op o := operator_of_symbol_of hk
      obtain rfl : w = [o.symbol] := by cases hw; rfl
      obtain ⟨r, hpre, hchars, hcount⟩ := ih hys hrun hr
      refine ⟨g ++ ([o.symbol] ++ r), ?_, ?_, ?_⟩
      · rw [List.prefix_append_right_inj, List.prefix_append_right_inj]
        exact hpre
      · simp only [List.forall_mem_append]
        exact ⟨fun c hc => Or.inr (hg c hc), by simpa using Or.inl (sign_of_operator ho), hchars⟩
      · have hgaps : g.count '-' = 0 := List.count_eq_zero.mpr fun hm => (operator_of_gap (hg _ hm)).2 rfl
        rw [List.count_append, List.count_append, hgaps, hcount, List.count_cons]
        cases o with
        | add | sub => simp [Operator.symbol, Nat.add_comm]
        | mul | div | pow => cases ho

/-- The text of the signs that stand somewhere in a formula. -/
theorem text_of_signs {cs : List Char} {pos : Nat} {ts : List Token} (h : Token.Lexer.Laid pos cs ts)
    {xs : List Formula.Symbol} (hx : symbolsOf vars (ts.map (·.kind)) = .ok xs) {run : List Operator}
    (hrun : ∀ o ∈ run, o.isSign = true) (hr : run.map .op <:+: xs) :
    ∃ r, r <:+: cs ∧ (∀ c ∈ r, IsSign c ∨ isGap c = true) ∧ r.count '-' = run.count .sub := by
  induction h generalizing xs with
  | done pos hg =>
    cases hx
    obtain rfl := List.map_eq_nil_iff.mp (List.infix_nil.mp hr)
    exact ⟨[], List.nil_infix, by simp, rfl⟩
  | @token g w cs pos k ts hg hw hcs hrest ih =>
    have hall := hx
    obtain ⟨x, ys, hk, hys, rfl⟩ := symbols_of_cons_eq_ok hx
    rcases List.infix_cons_iff.mp hr with hr | hr
    · obtain ⟨r, hpre, hr⟩ := text_of_first_signs (.token hg hw hcs hrest) hall hrun hr
      exact ⟨r, hpre.isInfix, hr⟩
    · obtain ⟨r, hin, hr⟩ := ih hys hr
      exact ⟨r, hin.trans (List.IsSuffix.isInfix ⟨g ++ w, List.append_assoc g w cs⟩), hr⟩

theorem keeps_parity_of_countable {cs : List Char} (hc : SignsCountable cs) {ks : List Kind} (hk : kindsOf cs = .ok ks)
    {xs : List Formula.Symbol} (hx : symbolsOf vars ks = .ok xs) {run : List Operator} (h : Formula.IsRun run xs) :
    Formula.KeepsParity (run.count .sub) := by
  obtain ⟨-, ts, ht, hp⟩ := kinds_of_eq_ok_iff.mp hk
  obtain ⟨-, -, rfl⟩ := passing_eq_ok_iff.mp hp
  obtain ⟨hrun, a, b, rfl, -, -⟩ := h
  obtain ⟨r, hin, hchars, hcount⟩ := text_of_signs (Token.Lexer.tokens_iff_laid.mp ht) hx hrun.2 ⟨a, b, rfl⟩
  rw [← hcount]
  exact Formula.keeps_parity_of_lt (hc r hin hchars)

/-! ## Checks -/

theorem any_clash_operators {us : List Token} (h : ∀ t ∈ us, ∃ o, t.kind = .op o) (after : List Token) :
    Line.anyClash (us ++ after) = Line.anyClash after := by
  induction us with
  | nil => rfl
  | cons u us ih =>
    obtain ⟨hu, hus⟩ := List.forall_mem_cons.mp h
    have hsplit := any_clash_split (Or.inr (Or.inr hu)) [] (us ++ after)
    rw [List.nil_append] at hsplit
    rw [List.cons_append, hsplit, ih hus]
    rfl

/-- Operators between them keep the tokens before and after apart. -/
theorem any_clash_around {us : List Token} (h : ∀ t ∈ us, ∃ o, t.kind = .op o) (hne : us ≠ [])
    (before after : List Token) :
    Line.anyClash (before ++ us ++ after) = (Line.anyClash before || Line.anyClash after) := by
  obtain ⟨u, us, rfl⟩ := List.exists_cons_of_ne_nil hne
  obtain ⟨hu, hus⟩ := List.forall_mem_cons.mp h
  rw [List.append_assoc, List.cons_append, any_clash_split (Or.inr (Or.inr hu)), any_clash_operators hus]

theorem passing_operators {us : List Token} {ops : List Operator} (hus : us.map (·.kind) = ops.map .op) (hne : ops ≠ [])
    (before after : List Token) : passing (before ++ us ++ after) =
      (passingAround before after).map fun c => c.1 ++ ops.map .op ++ c.2 := by
  have hops : ∀ t ∈ us, ∃ o, t.kind = .op o := by
    intro t ht
    have hk : t.kind ∈ us.map (·.kind) := List.mem_map.mpr ⟨t, ht, rfl⟩
    rw [hus] at hk
    obtain ⟨o, -, ho⟩ := List.mem_map.mp hk
    exact ⟨o, ho.symm⟩
  have husne : us ≠ [] := by
    rintro rfl
    exact hne (List.map_eq_nil_iff.mp hus.symm)
  have hnone : ∀ k : Kind, (∀ o, k ≠ .op o) → us.countP (·.kind = k) = 0 := by
    intro k hk
    rw [List.countP_eq_zero]
    intro t ht he
    obtain ⟨o, ho⟩ := hops t ht
    exact hk o ((of_decide_eq_true he).symm.trans ho)
  simp only [passing, passingAround, any_clash_around hops husne, List.countP_append, hnone .opening (by simp), hnone .closing (by simp),
    Nat.add_zero, List.map_append, hus]
  split
  · rfl
  · split <;> rfl

theorem dangles_signs {r : List Char} (h : SignText r) (a b : List Char) :
    danglesAtEnds (a ++ r ++ b) = danglesAtEnds (a ++ '+' :: b) := by
  obtain ⟨c, hc, hfirst⟩ := h.first
  obtain ⟨d, hd, hlast⟩ := h.last
  have hhead : (a ++ r ++ b).head?.any Line.danglesFirst = (a ++ '+' :: b).head?.any Line.danglesFirst := by
    cases a with
    | nil =>
      rw [List.nil_append, List.head?_append, Option.mem_def.mp hc]
      rcases hfirst with rfl | rfl <;> rfl
    | cons => rfl
  have hend : (a ++ r ++ b).getLast?.any Line.danglesLast = (a ++ '+' :: b).getLast?.any Line.danglesLast := by
    cases b with
    | nil =>
      rw [List.append_nil, List.getLast?_append, Option.mem_def.mp hd, List.getLast?_append]
      rcases hlast with rfl | rfl <;> rfl
    | cons x b =>
      rw [List.getLast?_append_of_ne_nil _ (List.cons_ne_nil x b), List.append_cons,
        List.getLast?_append_of_ne_nil _ (List.cons_ne_nil x b)]
  rw [danglesAtEnds, danglesAtEnds, hhead, hend]

theorem tokens_around_signs {r : List Char} (h : SignText r) (a b : List Char) :
    ∃ us, us.map (·.kind) = (operatorsIn r).map .op ∧ tokens ⟨a ++ r ++ b, 0⟩ = (tokens ⟨a, 0⟩).bind fun before =>
      (Token.Lexer.shiftRead (a.length + r.length) (tokens ⟨b, 0⟩)).map fun after => before ++ us ++ after := by
  obtain ⟨us, hus, hkinds⟩ := tokens_signs h.chars a.length
  refine ⟨us, hkinds, ?_⟩
  have hright : ¬Token.Lexer.Joins (a ++ r) b := by
    obtain ⟨d, hd, hlast⟩ := h.last
    refine Token.Lexer.not_joins_plain ?_ b
    intro x hx
    rw [List.getLast?_append, Option.mem_def.mp hd] at hx
    cases hx
    exact (sign_plain hlast).1
  have hleft : ¬Token.Lexer.Joins a r := by
    obtain ⟨c, hc, hfirst⟩ := h.first
    obtain ⟨r, rfl⟩ := List.head?_eq_some_iff.mp hc
    obtain ⟨o, -, hk, -, -⟩ := operator_of_sign hfirst
    exact Token.Lexer.not_joins_symbol hk a r
  have hshift := Token.Lexer.tokens_shift b 0 (a ++ r).length
  rw [List.length_append] at hshift
  rw [Token.Lexer.tokens_append hright, Token.Lexer.tokens_append hleft, List.length_append, hshift, Nat.zero_add, hus]
  cases tokens ⟨a, 0⟩ with
  | error e => rfl
  | ok before => cases Token.Lexer.shiftRead (a.length + r.length) (tokens ⟨b, 0⟩) <;> rfl

/-- What a text around a run of signs adds before and after it, or the fault found in the
    text. Any one sign tells whether the run dangles. -/
def aroundRun (a b : List Char) : Except Fault (List Kind × List Kind) :=
  if danglesAtEnds (a ++ '+' :: b) then .error .invalidExpression
  else match tokens ⟨a, 0⟩, tokens ⟨b, 0⟩ with
    | .ok before, .ok after => passingAround before after
    | _, _ => .error .invalidExpression

theorem kinds_around_signs {r : List Char} (h : SignText r) (a b : List Char) :
    kindsOf (a ++ r ++ b) = (aroundRun a b).map fun c => c.1 ++ (operatorsIn r).map .op ++ c.2 := by
  obtain ⟨us, hus, htokens⟩ := tokens_around_signs h a b
  rw [kinds_of_eq, dangles_signs h, Token.Lexer.ofList, htokens, aroundRun]
  split
  · rfl
  cases tokens ⟨a, 0⟩ with
  | error e => rfl
  | ok before =>
    cases tokens ⟨b, 0⟩ with
    | error e => rfl
    | ok after =>
      have hpassing := passing_operators hus (sign_run_of_text h).1.1 before
        (after.map (Token.Lexer.shiftToken (a.length + r.length)))
      rw [passing_around_shift] at hpassing
      exact hpassing

/-! ## Lines -/

theorem compute_kinds_run {r₁ r₂ : List Operator} (h₁ : Formula.SignRun r₁) (h₂ : Formula.SignRun r₂)
    (h : r₁.count .sub % 2 = r₂.count .sub % 2) {before after : List Kind}
    (hb₁ : ∀ xs, symbolsOf vars (before ++ r₁.map .op ++ after) = .ok xs →
      ∀ run, Formula.IsRun run xs → Formula.KeepsParity (run.count .sub))
    (hb₂ : ∀ xs, symbolsOf vars (before ++ r₂.map .op ++ after) = .ok xs →
      ∀ run, Formula.IsRun run xs → Formula.KeepsParity (run.count .sub)) :
    computeKinds limits vars (before ++ r₁.map .op ++ after) =
      computeKinds limits vars (before ++ r₂.map .op ++ after) := by
  simp only [computeKinds]
  simp only [symbols_of_append, symbols_of_operators] at hb₁ hb₂ ⊢
  cases hx : symbolsOf vars before with
  | error f => rfl
  | ok xs =>
    cases hy : symbolsOf vars after with
    | error f => rfl
    | ok ys =>
      rw [hx, hy] at hb₁ hb₂
      show Formula.value limits (xs ++ r₁.map .op ++ ys) = Formula.value limits (xs ++ r₂.map .op ++ ys)
      rw [Formula.value, Formula.value, Formula.settle_signs_run h₁ h₂ h (hb₁ _ rfl) (hb₂ _ rfl)]

/-- The signs of a line count for the operators that they are. -/
theorem enter_around_signs (limits : Limits) (vars : Variables) {a r b : String} (ha : '=' ∉ a.toList)
    (h : SignText r.toList) (hb : '=' ∉ b.toList) : enter limits vars (a ++ r ++ b) =
      answer vars ((aroundRun (Text.trimLeft a.toList) (Text.trimRight b.toList)).bind fun c =>
        computeKinds limits vars (c.1 ++ (operatorsIn r.toList).map .op ++ c.2)) := by
  have htrim : Text.trim (a ++ r ++ b).toList = Text.trimLeft a.toList ++ r.toList ++ Text.trimRight b.toList := by
    rw [← Text.trim_append_trimmed h.ne_nil h.trimmed, String.toList_append, String.toList_append]
  have hequals : '=' ∉ Text.trim (a ++ r ++ b).toList := by
    intro hm
    have hm := Text.mem_of_mem_trim hm
    rw [String.toList_append, String.toList_append, List.mem_append, List.mem_append] at hm
    rcases hm with (hm | hm) | hm
    · exact ha hm
    · exact h.not_mem_equals hm
    · exact hb hm
  have hne : Text.trim (a ++ r ++ b).toList ≠ [] := by
    rw [htrim]
    simp [h.ne_nil]
  have hexpression : IsExpression (a ++ r ++ b) := ⟨hne, hequals⟩
  rw [enter_expression hexpression, compute_expression hexpression, htrim, kinds_around_signs h]
  cases aroundRun (Text.trimLeft a.toList) (Text.trimRight b.toList) <;> rfl

/-- In a line whose signs can be counted, the parity of any run of them can be. -/
theorem keeps_parity_around {a r b : String} (h : SignText r.toList) (hc : SignsCountable (a ++ r ++ b).toList)
    {c : List Kind × List Kind} (hr : aroundRun (Text.trimLeft a.toList) (Text.trimRight b.toList) = .ok c)
    (xs : List Formula.Symbol) (hx : symbolsOf vars (c.1 ++ (operatorsIn r.toList).map .op ++ c.2) = .ok xs)
    (run : List Operator) (hrun : Formula.IsRun run xs) : Formula.KeepsParity (run.count .sub) := by
  have hkinds := kinds_around_signs h (Text.trimLeft a.toList) (Text.trimRight b.toList)
  rw [hr, ← Text.trim_append_trimmed h.ne_nil h.trimmed, ← String.toList_append, ← String.toList_append] at hkinds
  exact keeps_parity_of_countable (hc.of_infix (Text.trim_infix _)) hkinds hx hrun

/-- Only the parity of its minuses counts of a run of signs, in any formula and in any line
    without an `=` whose runs are not too long to be counted. -/
theorem signs_by_parity :
    (∀ (p s : List Formula.Symbol) (r₁ r₂ : List Operator), Formula.SignRun r₁ → Formula.SignRun r₂ →
        (∀ run, Formula.IsRun run (p ++ r₁.map .op ++ s) → Formula.KeepsParity (run.count .sub)) →
        (∀ run, Formula.IsRun run (p ++ r₂.map .op ++ s) → Formula.KeepsParity (run.count .sub)) →
        r₁.count .sub % 2 = r₂.count .sub % 2 →
        Formula.settleSigns (p ++ r₁.map .op ++ s) = Formula.settleSigns (p ++ r₂.map .op ++ s)) ∧
      ∀ (limits : Limits) (vars : Variables) (a b r₁ r₂ : String), '=' ∉ a.toList → '=' ∉ b.toList →
        SignText r₁.toList → SignText r₂.toList →
        SignsCountable (a ++ r₁ ++ b).toList → SignsCountable (a ++ r₂ ++ b).toList →
        r₁.toList.count '-' % 2 = r₂.toList.count '-' % 2 →
        enter limits vars (a ++ r₁ ++ b) = enter limits vars (a ++ r₂ ++ b) := by
  refine ⟨fun p s r₁ r₂ h₁ h₂ hp₁ hp₂ h => Formula.settle_signs_run h₁ h₂ h hp₁ hp₂, ?_⟩
  intro limits vars a b r₁ r₂ ha hb h₁ h₂ hc₁ hc₂ h
  obtain ⟨hrun₁, hcount₁⟩ := sign_run_of_text h₁
  obtain ⟨hrun₂, hcount₂⟩ := sign_run_of_text h₂
  rw [enter_around_signs limits vars ha h₁ hb, enter_around_signs limits vars ha h₂ hb]
  cases hr : aroundRun (Text.trimLeft a.toList) (Text.trimRight b.toList) with
  | error f => rfl
  | ok c =>
    refine congrArg (answer vars) (compute_kinds_run hrun₁ hrun₂ (by rw [hcount₁, hcount₂, h]) ?_ ?_)
    · exact keeps_parity_around h₁ hc₁ hr
    · exact keeps_parity_around h₂ hc₂ hr

/-- A run in front of a group that goes on with the signs before it, and one that goes on
    with those after it. -/
theorem signs_by_parity_merged :
    Formula.settleSigns [.num 5, .op .add, .op .sub, .op .sub, .opening] =
        Formula.settleSigns [.num 5, .op .sub, .op .sub, .op .sub, .op .sub, .opening] ∧
      enter {} .empty ("3 * -" ++ "-\t+--" ++ " (2)") = enter {} .empty ("3 * -" ++ "-" ++ " (2)") := by
  obtain ⟨hformula, hline⟩ := signs_by_parity
  refine ⟨?_, ?_⟩
  · exact hformula [.num 5] [.op .sub, .opening] [.add, .sub] [.sub, .sub, .sub] ⟨by decide, by decide⟩
      ⟨by decide, by decide⟩ (fun _ => Formula.keeps_parity_of_length (by decide))
      (fun _ => Formula.keeps_parity_of_length (by decide)) (by decide)
  · have hlong : SignText "-\t+--".toList := ⟨by simp [IsSign, isGap], ⟨'-', rfl, Or.inr rfl⟩, ⟨'-', rfl, Or.inr rfl⟩⟩
    have hshort : SignText "-".toList := ⟨by simp [IsSign, isGap], ⟨'-', rfl, Or.inr rfl⟩, ⟨'-', rfl, Or.inr rfl⟩⟩
    exact hline {} .empty "3 * -" " (2)" "-\t+--" "-" (by decide) (by decide) hlong hshort
      (signs_countable_of_length (by decide)) (signs_countable_of_length (by decide)) (by decide)

end Reckon
