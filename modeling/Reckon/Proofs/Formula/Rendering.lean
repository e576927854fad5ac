/-
  Reckon.Proofs.Formula.Rendering — formulas that are written as precedence asks.

  A formula without signs renders a tree of binary operators at a level if every operator
  that stands in no parentheses binds at least as tightly as the level, with operators of
  one level grouped to the left (`Renders`). The conversion of such a formula is the
  postorder of the tree (`to_code_of_renders`), whose run comes to the value of the tree
  or to the first fault in it (`run_code`).
-/

import Reckon.Proofs.Formula.Conversion
import Reckon.Proofs.Formula.Execution

namespace Reckon.Formula

variable (limits : Limits)

/-! ## Trees -/

inductive Tree where
  | num (v : Int)
  | binary (o : Operator) (l r : Tree)

namespace Tree

/-- The value of the left operand, then that of the right one, then the operator. -/
def value : Tree → Except Fault Int
  | num v => .ok v
  | binary o l r => do
    let a ← l.value
    let b ← r.value
    o.apply limits a b

def code : Tree → List Instr
  | num v => [.push v]
  | binary o l r => l.code ++ r.code ++ [.apply o]

theorem exec_code (t : Tree) (stack : Stack Int) :
    execAll limits t.code stack = (t.value limits).map (· :: stack) := by
  induction t generalizing stack with
  | num v => rfl
  | binary o l r ihl ihr =>
    rw [code, value, exec_all_append, exec_all_append, ihl]
    cases l.value limits with
    | error f => rfl
    | ok a =>
      show ((execAll limits r.code (a :: stack)).bind _) = _
      rw [ihr]
      cases r.value limits with
      | error f => rfl
      | ok b =>
        show execAll limits [.apply o] (b :: a :: stack) = (o.apply limits a b).map _
        rw [exec_all_cons]
        simp only [exec]
        cases o.apply limits a b <;> rfl

@[simp] theorem run_code (t : Tree) : run limits t.code = t.value limits := by
  rw [run_eq, exec_code]
  cases t.value limits <;> rfl

end Tree

/-! ## Formulas -/

/-- The formula renders the tree, no operator outside of parentheses binding looser than
    the level. -/
inductive Renders : Nat → List Symbol → Tree → Prop where
  | num (level : Nat) (v : Int) : Renders level [.num v] (.num v)
  | group (level : Nat) {inner : Nat} {l : List Symbol} {t : Tree} : Renders inner l t →
      Renders level (.opening :: (l ++ [.closing])) t
  | binary {level : Nat} (o : Operator) {a b : List Symbol} {l r : Tree} : level ≤ o.precedence →
      Renders o.precedence a l → Renders (o.precedence + 1) b r → Renders level (a ++ .op o :: b) (.binary o l r)

namespace Conversion

/-- Operators that wait, the one on top first. -/
def pile (ops : List Operator) : Stack Waiting := ops.map .op

/-- The code of these operators, as it stands once all are released. -/
def released (ops : List Operator) : List Instr := (ops.map .apply).reverse

theorem release_pile {level : Nat} {ops : List Operator} (h : ∀ o ∈ ops, level ≤ o.precedence) (code : List Instr)
    (w : Stack Waiting) : release level code (pile ops ++ w) = release level (released ops ++ code) w := by
  induction ops generalizing code with
  | nil => rfl
  | cons o ops ih =>
    have ho : ¬o.precedence < level := Nat.not_lt.mpr (h o List.mem_cons_self)
    show release level code (.op o :: (pile ops ++ w)) = _
    rw [release, if_neg ho, ih fun p hp => h p (List.mem_cons_of_mem o hp)]
    simp [released]

theorem finish_pile (ops : List Operator) (code : List Instr) :
    finish code (pile ops) = .ok (released ops ++ code).reverse := by
  induction ops generalizing code with
  | nil => rfl
  | cons o ops ih =>
    show finish (.apply o :: code) (pile ops) = _
    rw [ih]
    simp [released]

/-- The operator on top, if there is one, binds looser than the level. -/
def Looser (level : Nat) (w : Stack Waiting) : Prop := ∀ o, w.head? = some (.op o) → o.precedence < level

theorem release_looser {level : Nat} {w : Stack Waiting} (h : Looser level w) (code : List Instr) :
    release level code w = ⟨code, w⟩ := by
  cases w with
  | nil => rfl
  | cons x w =>
    cases x with
    | opening => rfl
    | op o => rw [release, if_pos (h o rfl)]

theorem looser_nil (level : Nat) : Looser level [] := by
  intro o ho
  cases ho

/-- A conversion that left some operators waiting, with `code` once they are released. -/
theorem to_code_of_read {l : List Symbol} {code' : List Instr} {ops : List Operator} {code : List Instr}
    (h : read ⟨[], []⟩ l = .ok ⟨code', pile ops ++ []⟩) (hc : released ops ++ code' = code.reverse ++ []) :
    toCode l = .ok code := by
  rw [to_code_eq, show start = ⟨[], []⟩ from rfl, h]
  show finish code' (pile ops ++ []) = _
  rw [List.append_nil, finish_pile, hc]
  simp

/-- A formula that renders a tree is converted to the code of the tree, except that some
    operators still wait to be released. -/
theorem read_renders {level : Nat} {l : List Symbol} {t : Tree} (h : Renders level l t) {code : List Instr}
    {w : Stack Waiting} (hw : Looser level w) :
    ∃ code' ops, read ⟨code, w⟩ l = .ok ⟨code', pile ops ++ w⟩ ∧ (∀ o ∈ ops, level ≤ o.precedence) ∧
      released ops ++ code' = t.code.reverse ++ code := by
  induction h generalizing code w with
  | num level v => exact ⟨.push v :: code, [], rfl, by simp, rfl⟩
  | @group level inner l t h ih =>
    obtain ⟨code', ops, hr, -, hc⟩ := @ih [] [] (looser_nil inner)
    exact ⟨t.code.reverse ++ code, [], read_group (to_code_of_read hr hc) _, by simp, rfl⟩
  | @binary level o a b l r ho hl hr ihl ihr =>
    have hwo : Looser o.precedence w := fun p hp => Nat.lt_of_lt_of_le (hw p hp) ho
    obtain ⟨codel, opsl, hreadl, hopsl, hcl⟩ := @ihl code w hwo
    have hstep : step ⟨codel, pile opsl ++ w⟩ (.op o) = .ok ⟨l.code.reverse ++ code, .op o :: w⟩ := by
      simp only [step, release_pile hopsl, hcl, release_looser hwo]
      rfl
    have hwr : Looser (o.precedence + 1) (.op o :: w) := by
      intro p hp
      cases hp
      exact Nat.lt_succ_self _
    obtain ⟨coder, opsr, hreadr, hopsr, hcr⟩ := @ihr (l.code.reverse ++ code) _ hwr
    refine ⟨coder, opsr ++ [o], ?_, ?_, ?_⟩
    · rw [read_append, hreadl]
      show read _ (.op o :: b) = _
      rw [read_cons, hstep]
      show read _ b = _
      rw [hreadr]
      simp [pile]
    · intro p hp
      rcases List.mem_append.mp hp with hp | hp
      · exact Nat.le_trans ho (Nat.le_of_lt (hopsr p hp))
      · cases List.mem_singleton.mp hp
        exact ho
    · have hsplit : released (opsr ++ [o]) = .apply o :: released opsr := by simp [released]
      rw [hsplit, List.cons_append, hcr]
      simp [Tree.code]

end Conversion

theorem to_code_of_renders {level : Nat} {l : List Symbol} {t : Tree} (h : Renders level l t) :
    toCode l = .ok t.code := by
  obtain ⟨code, ops, hr, -, hc⟩ := Conversion.read_renders h (Conversion.looser_nil level)
  exact Conversion.to_code_of_read hr hc

end Reckon.Formula
