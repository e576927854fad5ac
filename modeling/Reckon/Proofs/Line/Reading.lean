/-
  Reckon.Proofs.Line.Reading — expressions by the kinds of their tokens.

  An expression passes the checks of `Line.readExpression` or is refused by them; after
  that only the kinds of its tokens count (`compute_expression`, `enter_expression`), so
  what follows is stated of lists of kinds. `kinds_of_eq_ok_iff` says what it takes to
  pass. Where no name touches a number, which neighbours clash is a matter of kinds too
  (`no_clash_of_apart`).
-/

import Mathlib.Data.List.Chain
import Reckon.Calculator
import Reckon.Proofs.Formula.Execution
import Reckon.Proofs.Token.Reading

namespace Reckon

open Token (Kind)

variable (limits : Limits) (vars : Variables)

/-! ## Lists of kinds -/

def symbolsOf (ks : List Kind) : Except Fault (List Formula.Symbol) := ks.mapM (Formula.symbolOf vars)

def computeKinds (ks : List Kind) : Except Fault Int := (symbolsOf vars ks).bind (Formula.value limits)

theorem compute_kinds_eq_ok_iff {ks : List Kind} {v : Int} : computeKinds limits vars ks = .ok v ↔
    ∃ xs, symbolsOf vars ks = .ok xs ∧ Formula.value limits xs = .ok v := by
  constructor
  · intro h
    exact bind_eq_ok h
  · rintro ⟨xs, hx, hv⟩
    rw [computeKinds, hx]
    exact hv

theorem of_tokens_eq (ts : List Token) : Formula.ofTokens vars ts = symbolsOf vars (ts.map (·.kind)) := by
  rw [symbolsOf, List.mapM_map]
  rfl

theorem symbols_of_append (a b : List Kind) : symbolsOf vars (a ++ b) =
    (symbolsOf vars a).bind fun xs => (symbolsOf vars b).map (xs ++ ·) := by
  rw [symbolsOf, List.mapM_append, symbolsOf, symbolsOf]
  cases a.mapM (Formula.symbolOf vars) with
  | error f => rfl
  | ok xs => cases b.mapM (Formula.symbolOf vars) <;> rfl

theorem symbols_of_cons (k : Kind) (ks : List Kind) : symbolsOf vars (k :: ks) =
    (Formula.symbolOf vars k).bind fun x => (symbolsOf vars ks).map (x :: ·) := by
  rw [symbolsOf, List.mapM_cons, symbolsOf]
  cases Formula.symbolOf vars k with
  | error f => rfl
  | ok x => cases ks.mapM (Formula.symbolOf vars) <;> rfl

variable {vars} in
theorem symbols_of_cons_eq_ok {k : Kind} {ks : List Kind} {xs : List Formula.Symbol}
    (h : symbolsOf vars (k :: ks) = .ok xs) :
    ∃ x ys, Formula.symbolOf vars k = .ok x ∧ symbolsOf vars ks = .ok ys ∧ xs = x :: ys := by
  rw [symbols_of_cons] at h
  obtain ⟨x, hx, hxs⟩ := bind_eq_ok h
  obtain ⟨ys, hys, rfl⟩ := map_eq_ok hxs
  exact ⟨x, ys, hx, hys, rfl⟩

/-- Operators stand for themselves. -/
theorem symbols_of_operators (ops : List Operator) : symbolsOf vars (ops.map .op) = .ok (ops.map .op) := by
  induction ops with
  | nil => rfl
  | cons o ops ih =>
    rw [List.map_cons, symbols_of_cons, ih]
    rfl

theorem symbol_cases {k : Kind} (he : k ≠ .equals) :
    (∃ x, Formula.symbolOf vars k = .ok x ∧ ∀ name, k = .ident name → vars.get? name ≠ none) ∨
      (Formula.symbolOf vars k = .error .unknownVariable ∧ ∃ name, k = .ident name ∧ vars.get? name = none) := by
  cases k with
  | ident name =>
    cases hv : vars.get? name with
    | none => exact Or.inr ⟨by simp only [Formula.symbolOf, hv], name, rfl, hv⟩
    | some v =>
      refine Or.inl ⟨.num v, by simp only [Formula.symbolOf, hv], ?_⟩
      rintro other ⟨rfl⟩
      simp [hv]
  | equals => exact absurd rfl he
  | num | op | opening | closing => exact Or.inl ⟨_, rfl, nofun⟩

/-- Tokens have a formula if all names among them are bound, and are refused for the names
    otherwise. -/
theorem symbols_cases {ks : List Kind} (he : .equals ∉ ks) :
    (∃ xs, symbolsOf vars ks = .ok xs ∧ ∀ name, .ident name ∈ ks → vars.get? name ≠ none) ∨
      (symbolsOf vars ks = .error .unknownVariable ∧ ∃ name, .ident name ∈ ks ∧ vars.get? name = none) := by
  induction ks with
  | nil => exact Or.inl ⟨[], rfl, by simp⟩
  | cons k ks ih =>
    rw [List.mem_cons, not_or] at he
    rw [symbols_of_cons]
    rcases symbol_cases vars (Ne.symm he.1) with ⟨x, hx, hk⟩ | ⟨hx, name, rfl, hv⟩
    · rw [hx]
      rcases ih he.2 with ⟨xs, hxs, hbound⟩ | ⟨hxs, name, hname, hv⟩
      · refine Or.inl ⟨x :: xs, by rw [hxs]; rfl, ?_⟩
        intro name hname
        rcases List.mem_cons.mp hname with hname | hname
        · exact hk name hname.symm
        · exact hbound name hname
      · exact Or.inr ⟨by rw [hxs]; rfl, name, List.mem_cons_of_mem k hname, hv⟩
    · exact Or.inr ⟨by rw [hx]; rfl, name, List.mem_cons_self, hv⟩

/-- Only the values of the names in a list of kinds count: kinds that stand for the same
    symbols under other variables come to the same. -/
theorem symbols_of_map {other : Variables} (g : Kind → Kind) {ks : List Kind}
    (h : ∀ k ∈ ks, Formula.symbolOf other (g k) = Formula.symbolOf vars k) :
    symbolsOf other (ks.map g) = symbolsOf vars ks := by
  induction ks with
  | nil => rfl
  | cons k ks ih =>
    rw [List.map_cons, symbols_of_cons, symbols_of_cons, h k List.mem_cons_self,
      ih fun j hj => h j (List.mem_cons_of_mem k hj)]

theorem compute_kinds_map {other : Variables} (g : Kind → Kind) {ks : List Kind}
    (h : ∀ k ∈ ks, Formula.symbolOf other (g k) = Formula.symbolOf vars k) :
    computeKinds limits other (ks.map g) = computeKinds limits vars ks := by
  rw [computeKinds, computeKinds, symbols_of_map vars g h]

theorem compute_tokens_eq (ts : List Token) :
    computeTokens limits vars ts = computeKinds limits vars (ts.map (·.kind)) := by
  rw [computeKinds, ← of_tokens_eq]
  rfl

/-! ## Neighbours -/

theorem any_clash_cons (x : Token) (ts : List Token) :
    Line.anyClash (x :: ts) = (ts.head?.any (Line.clash x) || Line.anyClash ts) := by
  cases ts <;> rfl

theorem any_clash_eq_false_iff (ts : List Token) :
    Line.anyClash ts = false ↔ ts.IsChain fun x y => Line.clash x y = false := by
  induction ts with
  | nil => simp [Line.anyClash]
  | cons x ts ih =>
    rw [any_clash_cons, Bool.or_eq_false_iff, ih, List.isChain_cons]
    cases ts <;> simp

/-- A name and a number, in either order. -/
def nameAndNumber : Kind → Kind → Bool
  | .ident _, .num _ | .num _, .ident _ => true
  | _, _ => false

/-- No name touches a number. -/
def Spaced (ts : List Token) : Prop :=
  ts.IsChain fun x y => nameAndNumber x.kind y.kind = true → x.stop ≠ y.index

/-- Two kinds that may be neighbours where no name touches a number: not both are numbers. -/
def Apart (a b : Kind) : Prop := ∀ m n, ¬(a = .num m ∧ b = .num n)

theorem clash_eq_false {x y : Token} (hs : nameAndNumber x.kind y.kind = true → x.stop ≠ y.index)
    (ha : Apart x.kind y.kind) : Line.clash x y = false := by
  unfold Line.clash
  split
  · rename_i m n hx hy
    exact absurd ⟨hx, hy⟩ (ha m n)
  · rename_i hx hy
    exact beq_false_of_ne (hs (by rw [hx, hy]; rfl))
  · rename_i hx hy
    exact beq_false_of_ne (hs (by rw [hx, hy]; rfl))
  · rfl

theorem apart_of_no_clash {ts : List Token} (h : Line.anyClash ts = false) : (ts.map (·.kind)).IsChain Apart := by
  rw [List.isChain_map]
  refine ((any_clash_eq_false_iff ts).mp h).imp ?_
  intro x y hxy m n hmn
  simp [Line.clash, hmn] at hxy

theorem no_clash_of_apart {ts : List Token} (hs : Spaced ts) (h : (ts.map (·.kind)).IsChain Apart) :
    Line.anyClash ts = false := by
  rw [any_clash_eq_false_iff]
  induction ts with
  | nil => exact .nil
  | cons x ts ih =>
    rw [List.map_cons, List.isChain_cons] at h
    rw [Spaced, List.isChain_cons] at hs
    rw [List.isChain_cons]
    refine ⟨?_, ih hs.2 h.2⟩
    intro y hy
    exact clash_eq_false (hs.1 y hy) (h.1 _ (by simp [Option.mem_def.mp hy]))

theorem spaced_of_no_name {ts : List Token} (h : ∀ t ∈ ts, ∀ name, t.kind ≠ .ident name) : Spaced ts := by
  refine (List.pairwise_of_forall_mem_list ?_).isChain
  intro x hx y hy hn
  unfold nameAndNumber at hn
  split at hn
  · rename_i hk _
    exact absurd hk (h x hx _)
  · rename_i hk
    exact absurd hk (h y hy _)
  · cases hn

/-- Nothing clashes with a parenthesis or an operator. -/
theorem any_clash_split {t : Token} (ht : t.kind = .opening ∨ t.kind = .closing ∨ ∃ o, t.kind = .op o)
    (a b : List Token) : Line.anyClash (a ++ t :: b) = (Line.anyClash a || Line.anyClash b) := by
  have hright : ∀ x, Line.clash x t = false := by
    intro x
    rcases ht with h | h | ⟨o, h⟩ <;> simp [Line.clash, h]
  have hleft : ∀ x, Line.clash t x = false := by
    intro x
    rcases ht with h | h | ⟨o, h⟩ <;> simp [Line.clash, h]
  induction a with
  | nil =>
    rw [List.nil_append, any_clash_cons]
    cases b <;> simp [hleft, Line.anyClash]
  | cons x a ih =>
    rw [List.cons_append, any_clash_cons, any_clash_cons, ih]
    cases a <;> simp [hright, Bool.or_assoc]

@[simp] theorem any_clash_shift (k : Nat) (ts : List Token) :
    Line.anyClash (ts.map (Token.Lexer.shiftToken k)) = Line.anyClash ts := by
  have hc : ∀ x y, Line.clash (Token.Lexer.shiftToken k x) (Token.Lexer.shiftToken k y) = Line.clash x y := by
    intro x y
    have hs : ((Token.Lexer.shiftToken k x).stop == (Token.Lexer.shiftToken k y).index) = (x.stop == y.index) := by
      simp only [Token.Lexer.shiftToken, Token.stop, Bool.beq_eq_decide_eq, decide_eq_decide]
      omega
    simp only [Line.clash, hs]
    rfl
  induction ts with
  | nil => rfl
  | cons x ts ih =>
    rw [List.map_cons, any_clash_cons, any_clash_cons, ih]
    cases ts with
    | nil => rfl
    | cons y ts => simp [hc]

/-! ## Passing the checks -/

/-- The kinds of the tokens of an expression. -/
def Line.kinds : Line → List Kind
  | .expression ts => ts.map (·.kind)
  | .blank | .assignment .. => []

/-- The kinds of the tokens of a text, if it passes for an expression. -/
def kindsOf (cs : List Char) : Except Fault (List Kind) := (Line.readExpression cs).map Line.kinds

/-- An operator stands at an end of a text where none may stand. -/
def danglesAtEnds (cs : List Char) : Bool :=
  cs.head?.any Line.danglesFirst || cs.getLast?.any Line.danglesLast

theorem dangles_eq_false_iff (cs : List Char) : danglesAtEnds cs = false ↔
    (∀ c ∈ cs.head?, Line.danglesFirst c = false) ∧ ∀ c ∈ cs.getLast?, Line.danglesLast c = false := by
  have any : ∀ (p : Char → Bool) (o : Option Char), o.any p = false ↔ ∀ c ∈ o, p c = false := by
    intro p o
    cases o <;> simp
  rw [danglesAtEnds, Bool.or_eq_false_iff, any, any]

theorem operator_of_dangles {c : Char} (h : Line.danglesFirst c = true ∨ Line.danglesLast c = true) :
    ∃ o, Kind.ofChar? c = some (.op o) ∧ (Line.danglesFirst c = true → o.isSign = false) := by
  simp only [Line.danglesFirst, Line.danglesLast, Bool.or_eq_true, beq_iff_eq] at h
  rcases h with ((rfl | rfl) | rfl) | ((rfl | rfl) | rfl)
  · exact ⟨.mul, rfl, fun _ => rfl⟩
  · exact ⟨.div, rfl, fun _ => rfl⟩
  · exact ⟨.pow, rfl, fun _ => rfl⟩
  · exact ⟨.add, rfl, fun h => absurd h (by decide)⟩
  · exact ⟨.sub, rfl, fun h => absurd h (by decide)⟩
  · exact ⟨.pow, rfl, fun _ => rfl⟩

theorem dangles_of_word {c : Char} (h : c.isAlpha = true ∨ c.isDigit = true) :
    Line.danglesFirst c = false ∧ Line.danglesLast c = false := by
  have plain : ¬(Line.danglesFirst c = true ∨ Line.danglesLast c = true) := by
    intro hd
    obtain ⟨o, ho, -⟩ := operator_of_dangles hd
    rw [(Token.word_plain h).1] at ho
    cases ho
  simpa using plain

theorem read_expression_eq (cs : List Char) : Line.readExpression cs =
    if danglesAtEnds cs then .error .invalidExpression
    else match (Token.Lexer.ofList cs).tokens with
      | .error _ => .error .invalidExpression
      | .ok ts =>
        if Line.anyClash ts then .error .invalidIdentifier
        else if ts.countP (·.kind = .opening) ≠ ts.countP (·.kind = .closing) then .error .invalidExpression
        else .ok (.expression ts) := rfl

theorem expression_of_read {cs : List Char} {line : Line} (h : Line.readExpression cs = .ok line) :
    ∃ ts, line = .expression ts := by
  rw [read_expression_eq] at h
  repeat' split at h
  all_goals cases h
  exact ⟨_, rfl⟩

theorem tokens_of_read {cs : List Char} {ts : List Token} (h : Line.readExpression cs = .ok (.expression ts)) :
    (Token.Lexer.ofList cs).tokens = .ok ts := by
  rw [read_expression_eq] at h
  repeat' split at h
  all_goals cases h
  assumption

/-- The kinds of some tokens, if no two neighbours clash and the parentheses are as many
    on both sides. -/
def passing (ts : List Token) : Except Fault (List Kind) :=
  if Line.anyClash ts then .error .invalidIdentifier
  else if ts.countP (·.kind = .opening) ≠ ts.countP (·.kind = .closing) then .error .invalidExpression
  else .ok (ts.map (·.kind))

theorem count_kinds (ts : List Token) (k : Kind) : ts.countP (·.kind = k) = (ts.map (·.kind)).countP (· = k) := by
  rw [List.countP_map]
  rfl

/-- Only the check for clashes looks at more than the kinds. -/
theorem passing_eq (ts : List Token) : passing ts =
    if Line.anyClash ts then .error .invalidIdentifier
    else if (ts.map (·.kind)).countP (· = .opening) ≠ (ts.map (·.kind)).countP (· = .closing) then
      .error .invalidExpression
    else .ok (ts.map (·.kind)) := by
  rw [← count_kinds, ← count_kinds, passing]

theorem passing_eq_ok_iff {ts : List Token} {ks : List Kind} : passing ts = .ok ks ↔
    Line.anyClash ts = false ∧ ts.countP (·.kind = .opening) = ts.countP (·.kind = .closing) ∧
      ts.map (·.kind) = ks := by
  unfold passing
  split
  · rename_i hc; simp [hc]
  · rename_i hc
    split
    · rename_i hn; simp [hn]
    · rename_i hn
      simp only [ne_eq, Decidable.not_not] at hn
      simp [hc, hn]

@[simp] theorem passing_shift (k : Nat) (ts : List Token) :
    passing (ts.map (Token.Lexer.shiftToken k)) = passing ts := by
  rw [passing_eq, passing_eq, any_clash_shift, List.map_map]
  rfl

theorem kinds_of_eq (cs : List Char) : kindsOf cs =
    if danglesAtEnds cs then .error .invalidExpression
    else match (Token.Lexer.ofList cs).tokens with
      | .error _ => .error .invalidExpression
      | .ok ts => passing ts := by
  rw [kindsOf, read_expression_eq]
  split
  · rfl
  · cases (Token.Lexer.ofList cs).tokens with
    | error e => rfl
    | ok ts =>
      simp only [passing]
      split
      · rfl
      · split <;> rfl

theorem kinds_of_eq_ok_iff {cs : List Char} {ks : List Kind} : kindsOf cs = .ok ks ↔
    danglesAtEnds cs = false ∧ ∃ ts, (Token.Lexer.ofList cs).tokens = .ok ts ∧ passing ts = .ok ks := by
  rw [kinds_of_eq]
  constructor
  · intro h
    split at h
    · cases h
    · rename_i hd
      split at h
      · cases h
      · rename_i ts ht
        exact ⟨by simpa using hd, ts, ht, h⟩
  · rintro ⟨hd, ts, ht, hp⟩
    simp [hd, ht, hp]

/-! ## Lines -/

/-- What an expression comes to when it is entered: it leaves the variables alone. -/
def answer : Except Fault Int → Outcome × Variables
  | .ok v => (.value v, vars)
  | .error f => (.refused f, vars)

/-- A line that is neither blank nor has an `=` in it. -/
def IsExpression (line : String) : Prop :=
  Text.trim line.toList ≠ [] ∧ '=' ∉ Text.trim line.toList

variable {limits vars}

theorem of_string_expression {line : String} (h : IsExpression line) :
    Line.ofString line = Line.readExpression (Text.trim line.toList) := by
  obtain ⟨hne, heq⟩ := h
  simp [Line.ofString, hne, heq]

theorem compute_expression {line : String} (h : IsExpression line) :
    compute limits vars line = (kindsOf (Text.trim line.toList)).bind (computeKinds limits vars) := by
  rw [compute, of_string_expression h, kindsOf]
  cases hr : Line.readExpression (Text.trim line.toList) with
  | error f => rfl
  | ok l =>
    obtain ⟨ts, rfl⟩ := expression_of_read hr
    exact compute_tokens_eq limits vars ts

theorem enter_expression {line : String} (h : IsExpression line) :
    enter limits vars line = answer vars (compute limits vars line) := by
  rw [compute, enter, of_string_expression h]
  cases hr : Line.readExpression (Text.trim line.toList) with
  | error f => rfl
  | ok l =>
    obtain ⟨ts, rfl⟩ := expression_of_read hr
    show (match computeTokens limits vars ts with
      | .ok value => (Outcome.value value, vars)
      | .error fault => (.refused fault, vars)) = answer vars (computeTokens limits vars ts)
    cases computeTokens limits vars ts <;> rfl

theorem assignment_of_read {cs : List Char} {line : Line} (h : Line.readAssignment cs = .ok line) :
    ∃ lhs rhs, line = .assignment lhs rhs := by
  unfold Line.readAssignment at h
  simp only at h
  repeat' split at h
  all_goals cases h
  exact ⟨_, _, rfl⟩

theorem expression_of_string {line : String} {ts : List Token} (h : Line.ofString line = .ok (.expression ts)) :
    IsExpression line ∧ Line.readExpression (Text.trim line.toList) = .ok (.expression ts) := by
  unfold Line.ofString at h
  simp only at h
  split at h
  · cases h
  · rename_i hne
    split at h
    · obtain ⟨lhs, rhs, ha⟩ := assignment_of_read h
      cases ha
    · rename_i heq
      exact ⟨⟨by simpa using hne, by simpa using heq⟩, h⟩

/-- Only an expression has a value. -/
theorem expression_of_compute {line : String} {v : Int} (h : compute limits vars line = .ok v) :
    IsExpression line := by
  obtain ⟨l, hl, hv⟩ := bind_eq_ok h
  cases l with
  | expression ts => exact (expression_of_string hl).1
  | blank | assignment => cases hv

/-- Entering a line shows a value exactly if the line has it. -/
theorem enter_value_iff {line : String} {v : Int} :
    (enter limits vars line).1 = .value v ↔ compute limits vars line = .ok v := by
  cases hl : Line.ofString line with
  | error f => simp [enter, compute, hl, bind, Except.bind]
  | ok l =>
    cases l with
    | blank => simp [enter, compute, hl, bind, Except.bind]
    | assignment lhs rhs =>
      cases ha : vars.assign lhs rhs <;> simp [enter, compute, hl, ha, bind, Except.bind]
    | expression ts =>
      cases hc : computeTokens limits vars ts <;> simp [enter, compute, hl, hc, bind, Except.bind]

theorem enter_of_compute {line : String} {v : Int} (h : compute limits vars line = .ok v) :
    enter limits vars line = (.value v, vars) := by
  rw [enter_expression (expression_of_compute h), h]
  rfl

theorem compute_eq_ok_iff {line : String} {v : Int} : compute limits vars line = .ok v ↔
    IsExpression line ∧ ∃ ks, kindsOf (Text.trim line.toList) = .ok ks ∧ computeKinds limits vars ks = .ok v := by
  constructor
  · intro h
    have he := expression_of_compute h
    rw [compute_expression he] at h
    exact ⟨he, bind_eq_ok h⟩
  · rintro ⟨he, ks, hk, hv⟩
    rw [compute_expression he, hk]
    exact hv

end Reckon
