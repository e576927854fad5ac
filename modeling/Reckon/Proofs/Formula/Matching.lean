/-
  Reckon.Proofs.Formula.Matching — which formulas are converted, and what they keep.

  Whether parentheses match is a matter of counting them: no beginning of the formula has
  more that close than open, and in all there are as many of both (`balanced_iff_matched`).
  Settling the signs adds parentheses of its own and changes nothing in this, also where
  they do not match.

  A conversion moves operators from those that wait to the code and drops nothing: at any
  time the numbers of the code are the numbers read so far, in their order, and the
  operators of the code and those that wait are together the operators read so far
  (`read_keeps`). So a formula that is converted keeps all it is made of but its
  parentheses (`to_code_matched`).
-/

import Reckon.Proofs.Formula.Magnitude
import Reckon.Proofs.Formula.Parentheses
import Reckon.Proofs.Formula.Rendering

namespace Reckon.Formula

/-! ## Counting parentheses -/

/-- No parenthesis closes what was not opened before it. -/
def Covered (l : List Symbol) : Prop := ∀ p, p <+: l → p.count .closing ≤ p.count .opening

/-- No closing parenthesis comes before its opening one, and every opening one is closed. -/
def Matched (l : List Symbol) : Prop := Covered l ∧ l.count .closing = l.count .opening

theorem forall_prefix_cons {α : Type} {P : List α → Prop} {x : α} {l : List α} :
    (∀ p, p <+: x :: l → P p) ↔ P [] ∧ ∀ p, p <+: l → P (x :: p) := by
  constructor
  · intro h
    exact ⟨h [] List.nil_prefix, fun p hp => h (x :: p) (List.cons_prefix_cons.mpr ⟨rfl, hp⟩)⟩
  · intro ⟨hnil, hcons⟩ p hp
    rcases List.prefix_cons_iff.mp hp with rfl | ⟨q, rfl, hq⟩
    · exact hnil
    · exact hcons q hq

theorem balance_eq_some_iff {n m : Nat} {l : List Symbol} :
    balance n l = some m ↔
      (∀ p, p <+: l → p.count .closing ≤ n + p.count .opening) ∧ m + l.count .closing = n + l.count .opening := by
  induction l generalizing n with
  | nil => simp [balance, eq_comm]
  | cons x l ih =>
    rw [forall_prefix_cons]
    cases x with
    | num v => simpa [balance] using ih
    | op o => simpa [balance] using ih
    | opening => simpa [balance, Nat.add_assoc, Nat.add_comm 1] using ih (n := n + 1)
    | closing =>
      cases n with
      | zero =>
        -- the parenthesis alone is a beginning with one too many
        refine iff_of_false (by simp [balance]) ?_
        rintro ⟨⟨-, h⟩, -⟩
        have := h [] List.nil_prefix
        simp at this
      | succ n =>
        have hn : ∀ k, n + 1 + k = n + k + 1 := by omega
        simpa [balance, hn, ← Nat.add_assoc] using ih (n := n)

theorem balanced_iff_matched (l : List Symbol) : Balanced l ↔ Matched l := by
  simpa [Balanced, Matched, Covered] using balance_eq_some_iff (n := 0) (m := 0) (l := l)

/-! ## What formulas and code are made of -/

def Symbol.number? : Symbol → Option Int
  | .num v => some v
  | _ => none

def Symbol.operator? : Symbol → Option Operator
  | .op o => some o
  | _ => none

def Instr.operator? : Instr → Option Operator
  | .apply o => some o
  | .push _ => none

def Waiting.operator? : Waiting → Option Operator
  | .op o => some o
  | .opening => none

def numbers (l : List Symbol) : List Int := l.filterMap Symbol.number?

def operators (l : List Symbol) : List Operator := l.filterMap Symbol.operator?

/-- The operators of the code; its numbers are its `operands`. -/
def operations (code : List Instr) : List Operator := code.filterMap Instr.operator?

namespace Conversion

/-! ## Moving operators to the code -/

theorem release_splits (level : Nat) (code : List Instr) (w : Stack Waiting) :
    ∃ ops w', w = pile ops ++ w' ∧ release level code w = ⟨released ops ++ code, w'⟩ := by
  induction w generalizing code with
  | nil => exact ⟨[], [], rfl, rfl⟩
  | cons x w ih =>
    cases x with
    | opening => exact ⟨[], .opening :: w, rfl, rfl⟩
    | op o =>
      by_cases h : o.precedence < level
      · exact ⟨[], .op o :: w, rfl, by rw [release, if_pos h]; rfl⟩
      · obtain ⟨ops, w', rfl, hr⟩ := ih (.apply o :: code)
        exact ⟨o :: ops, w', rfl, by rw [release, if_neg h, hr]; simp [released]⟩

theorem leave_splits {code : List Instr} {w : Stack Waiting} {c : Conversion} (h : leave code w = .ok c) :
    ∃ ops, w = pile ops ++ .opening :: c.waiting ∧ c.code = released ops ++ code := by
  induction w generalizing code with
  | nil => cases h
  | cons x w ih =>
    cases x with
    | opening =>
      cases h
      exact ⟨[], rfl, rfl⟩
    | op o =>
      obtain ⟨ops, rfl, hc⟩ := ih h
      exact ⟨o :: ops, rfl, by rw [hc]; simp [released]⟩

theorem finish_splits {code : List Instr} {w : Stack Waiting} {cs : List Instr} (h : finish code w = .ok cs) :
    ∃ ops, w = pile ops ∧ cs = (released ops ++ code).reverse := by
  induction w generalizing code with
  | nil =>
    cases h
    exact ⟨[], rfl, rfl⟩
  | cons x w ih =>
    cases x with
    | opening => cases h
    | op o =>
      obtain ⟨ops, rfl, hc⟩ := ih h
      exact ⟨o :: ops, rfl, by rw [hc]; simp [released]⟩

/-- The operators of the code and those that wait, the next to be released first. -/
def stock (c : Conversion) : List Operator :=
  operations c.code.reverse ++ c.waiting.filterMap Waiting.operator?

theorem stock_released (ops : List Operator) (code : List Instr) (w : Stack Waiting) :
    stock ⟨released ops ++ code, w⟩ = stock ⟨code, pile ops ++ w⟩ := by
  simp [stock, operations, released, pile, Instr.operator?, Waiting.operator?, Function.comp_def]

theorem operands_released (ops : List Operator) (code : List Instr) :
    operands (released ops ++ code).reverse = operands code.reverse := by
  have hnone : operands (ops.map .apply) = [] := by
    induction ops with
    | nil => rfl
    | cons o ops ih => exact ih
  rw [released, List.reverse_append, List.reverse_reverse, operands_append, hnone, List.append_nil]

/-! ## Nothing is lost -/

/-- The conversion `c'` has in addition to what `c` has just what some symbols are made of. -/
structure Keeps (c : Conversion) (l : List Symbol) (c' : Conversion) : Prop where
  operands : operands c'.code.reverse = operands c.code.reverse ++ numbers l
  stock : c'.stock.Perm (c.stock ++ operators l)

theorem Keeps.trans {c d e : Conversion} {a b : List Symbol} (hcd : c.Keeps a d) (hde : d.Keeps b e) :
    c.Keeps (a ++ b) e := by
  have hn : numbers (a ++ b) = numbers a ++ numbers b := List.filterMap_append
  have ho : operators (a ++ b) = operators a ++ operators b := List.filterMap_append
  refine ⟨?_, ?_⟩
  · rw [hde.operands, hcd.operands, hn, List.append_assoc]
  · rw [ho, ← List.append_assoc]
    exact hde.stock.trans (hcd.stock.append_right (operators b))

theorem step_keeps {c c' : Conversion} {x : Symbol} (h : c.step x = .ok c') : c.Keeps [x] c' := by
  obtain ⟨code, w⟩ := c
  cases x with
  | num v =>
    cases h
    refine ⟨?_, ?_⟩
    · rw [List.reverse_cons, operands_append]
      rfl
    · simp [stock, operations, operators, List.filterMap_cons, Instr.operator?, Symbol.operator?]
  | op o =>
    obtain ⟨ops, w', rfl, hr⟩ := release_splits o.precedence code w
    simp only [step, hr] at h
    cases h
    refine ⟨(operands_released ops code).trans (List.append_nil _).symm, ?_⟩
    rw [← stock_released]
    have hlast : (o :: w'.filterMap Waiting.operator?).Perm (w'.filterMap Waiting.operator? ++ [o]) :=
      (List.perm_append_singleton o _).symm
    simpa [stock, Stack.push, operators, List.filterMap_cons, Waiting.operator?, Symbol.operator?] using
      hlast.append_left (operations (released ops ++ code).reverse)
  | opening =>
    cases h
    refine ⟨(List.append_nil _).symm, ?_⟩
    simp [stock, Stack.push, operators, List.filterMap_cons, Waiting.operator?, Symbol.operator?]
  | closing =>
    obtain ⟨ops, rfl, hc⟩ := leave_splits h
    refine ⟨?_, ?_⟩
    · rw [hc]
      exact (operands_released ops code).trans (List.append_nil _).symm
    · rw [show c' = ⟨released ops ++ code, c'.waiting⟩ by rw [← hc], stock_released]
      simp [stock, pile, operators, List.filterMap_cons, Waiting.operator?, Symbol.operator?]

theorem read_keeps {c c' : Conversion} {l : List Symbol} (h : c.read l = .ok c') : c.Keeps l c' := by
  induction l generalizing c with
  | nil =>
    cases h
    exact ⟨(List.append_nil _).symm, List.Perm.of_eq (List.append_nil _).symm⟩
  | cons x l ih =>
    rw [read_cons] at h
    obtain ⟨d, hx, hr⟩ := bind_eq_ok h
    exact (step_keeps hx).trans (ih hr)

end Conversion

theorem to_code_keeps {l : List Symbol} {code : List Instr} (h : toCode l = .ok code) :
    operands code = numbers l ∧ (operations code).Perm (operators l) := by
  rw [Conversion.to_code_eq] at h
  obtain ⟨⟨made, w⟩, hc, hf⟩ := bind_eq_ok h
  obtain ⟨hn, ho⟩ := Conversion.read_keeps hc
  obtain ⟨ops, rfl, rfl⟩ := Conversion.finish_splits hf
  refine ⟨(Conversion.operands_released ops made).trans hn, ?_⟩
  have hdone : Conversion.stock ⟨Conversion.released ops ++ made, []⟩ =
      Conversion.stock ⟨made, Conversion.pile ops⟩ := by
    simpa using Conversion.stock_released ops made []
  have hstart : Conversion.start.stock = [] := rfl
  rw [hstart, List.nil_append, ← hdone] at ho
  simpa [Conversion.stock] using ho

/-- A formula is converted exactly if its parentheses match, with or without its signs
    settled, and a mismatch is the only fault. The code has the numbers of the formula in
    their order, and its operators in some order. -/
theorem to_code_matched (l : List Symbol) :
    ((∃ code, toCode l = .ok code) ↔ Matched l) ∧
      (∀ fault, toCode l = .error fault → fault = .invalidExpression) ∧
      (∀ code, toCode l = .ok code → operands code = numbers l ∧ (operations code).Perm (operators l)) ∧
      (Matched (settleSigns l) ↔ Matched l) ∧
      ((∃ fault, toCode (settleSigns l) = .error fault) ↔ ¬Matched l) := by
  have hsettled : Matched (settleSigns l) ↔ Matched l := by
    rw [← balanced_iff_matched, ← balanced_iff_matched, balanced_settle_signs]
  refine ⟨?_, ?_, fun _ => to_code_keeps, hsettled, ?_⟩
  · rw [← balanced_iff_matched]
    rcases to_code_cases l with ⟨code, hc, hb⟩ | ⟨hc, hb⟩
    · exact iff_of_true ⟨code, hc⟩ hb
    · simp [hc, hb]
  · intro fault h
    rcases to_code_cases l with ⟨code, hc, -⟩ | ⟨hc, -⟩ <;> rw [hc] at h <;> cases h
    rfl
  · rw [← hsettled, ← balanced_iff_matched]
    rcases to_code_cases (settleSigns l) with ⟨code, hc, hb⟩ | ⟨hc, hb⟩
    · simp [hc, hb]
    · exact iff_of_true ⟨_, hc⟩ hb

/-- In `2 * 6 - (3 + 4) ^ 5` the operators change places, and in `) * -(1` the parenthesis
    that is added for the sign mends nothing. -/
theorem to_code_matched_power :
    let l : List Symbol := [.num 2, .op .mul, .num 6, .op .sub, .opening, .num 3, .op .add, .num 4, .closing,
      .op .pow, .num 5]
    let code : List Instr := [.push 2, .push 6, .apply .mul, .push 3, .push 4, .apply .add, .push 5, .apply .pow,
      .apply .sub]
    let bad : List Symbol := [.closing, .op .mul, .op .sub, .opening, .num 1]
    toCode l = .ok code ∧ operands code = [2, 6, 3, 4, 5] ∧ (operations code).Perm [.mul, .sub, .add, .pow] ∧
      toCode (settleSigns bad) = .error .invalidExpression := by
  intro l code bad
  have hcode : toCode l = .ok code := eq_ok_of_to_option (by decide +kernel)
  obtain ⟨hn, ho⟩ := (to_code_matched l).2.2.1 code hcode
  have hbad : ¬Matched bad := fun h => absurd (h.1 [.closing] ⟨_, rfl⟩) (by decide)
  obtain ⟨fault, hfault⟩ := (to_code_matched bad).2.2.2.2.mpr hbad
  obtain rfl := (to_code_matched (settleSigns bad)).2.1 fault hfault
  exact ⟨hcode, hn, ho, hfault⟩

end Reckon.Formula
