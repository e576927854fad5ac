/-
  Reckon.Proofs.Formula.Grouping — the parentheses that a formula needs, and those that
  it does not.

  A tree is written out with its operators between their operands. An operand needs
  parentheses if its own operator binds looser than the one it belongs to, and a right
  operand also if it binds as tightly. Any other pair of parentheses, around any part, is
  free (`Writes`). What is needed is what keeps a formula at the level of its operator
  (`renders_of_writes`), so every way of writing a tree is converted to the postorder of
  the tree, and operators of one level that stand in a row are grouped to the left
  (`to_code_of_writes`).
-/

import Reckon.Proofs.Formula.Rendering

namespace Reckon.Formula

/-! ## Writing a tree -/

namespace Tree

/-- Whether a tree needs parentheses as the left operand of an operator. -/
def needsLeft (o : Operator) : Tree → Prop
  | num _ => False
  | binary p _ _ => p.precedence < o.precedence

/-- Whether a tree needs parentheses as the right operand of an operator. -/
def needsRight (o : Operator) : Tree → Prop
  | num _ => False
  | binary p _ _ => p.precedence ≤ o.precedence

/-- Whether the operator of a tree, if it has one, binds at least as tightly as a level. -/
def bindsAt (level : Nat) : Tree → Prop
  | num _ => True
  | binary p _ _ => level ≤ p.precedence

theorem binds_of_not_needs_left {o : Operator} {t : Tree} (h : ¬t.needsLeft o) : t.bindsAt o.precedence := by
  cases t with
  | num v => exact trivial
  | binary p l r => exact Nat.le_of_not_lt h

theorem binds_of_not_needs_right {o : Operator} {t : Tree} (h : ¬t.needsRight o) :
    t.bindsAt (o.precedence + 1) := by
  cases t with
  | num v => exact trivial
  | binary p l r => exact Nat.lt_of_not_le h

theorem binds_at_zero (t : Tree) : t.bindsAt 0 := by
  cases t with
  | num v => exact trivial
  | binary p l r => exact Nat.zero_le _

end Tree

/-- The formula writes the tree, with every pair of parentheses that is needed; `enclosed`
    tells whether one pair encloses it all. -/
inductive Writes : (enclosed : Bool) → List Symbol → Tree → Prop where
  | num (v : Int) : Writes false [.num v] (.num v)
  | group {enclosed : Bool} {l : List Symbol} {t : Tree} : Writes enclosed l t →
      Writes true (.opening :: (l ++ [.closing])) t
  | binary (o : Operator) {c d : Bool} {a b : List Symbol} {l r : Tree} : Writes c a l → Writes d b r →
      (l.needsLeft o → c = true) → (r.needsRight o → d = true) →
      Writes false (a ++ .op o :: b) (.binary o l r)

theorem renders_of_writes {enclosed : Bool} {f : List Symbol} {t : Tree} (h : Writes enclosed f t) {level : Nat}
    (hlevel : enclosed = true ∨ t.bindsAt level) : Renders level f t := by
  induction h generalizing level with
  | num v => exact .num level v
  | group _ ih => exact .group level (ih (Or.inr (Tree.binds_at_zero _)))
  | @binary o c d a b l r _ _ hl hr ihl ihr =>
    have ho : level ≤ o.precedence := hlevel.resolve_left Bool.false_ne_true
    refine .binary o ho (ihl ?_) (ihr ?_)
    · by_cases hn : l.needsLeft o
      · exact Or.inl (hl hn)
      · exact Or.inr (Tree.binds_of_not_needs_left hn)
    · by_cases hn : r.needsRight o
      · exact Or.inl (hr hn)
      · exact Or.inr (Tree.binds_of_not_needs_right hn)

/-! ## Operators in a row -/

/-- An operator and its right operand. -/
structure Link where
  operator : Operator
  formula : List Symbol
  tree : Tree

/-- The operand is written so that it can stand to the right of its operator. -/
def Link.Fits (x : Link) : Prop :=
  ∃ enclosed, Writes enclosed x.formula x.tree ∧ (x.tree.needsRight x.operator → enclosed = true)

/-- A formula with operators and their right operands after it. -/
def chainFormula (f : List Symbol) (links : List Link) : List Symbol :=
  links.foldl (fun f x => f ++ .op x.operator :: x.formula) f

/-- The same as a tree, grouped to the left. -/
def chainTree (t : Tree) (links : List Link) : Tree :=
  links.foldl (fun t x => .binary x.operator t x.tree) t

theorem renders_chain {level : Nat} {f : List Symbol} {t : Tree} (h : Renders level f t) {links : List Link}
    (hlinks : ∀ x ∈ links, x.operator.precedence = level ∧ x.Fits) :
    Renders level (chainFormula f links) (chainTree t links) := by
  induction links generalizing f t with
  | nil => exact h
  | cons x links ih =>
    obtain ⟨ho, enclosed, hx, hn⟩ := hlinks x List.mem_cons_self
    have hright : Renders (x.operator.precedence + 1) x.formula x.tree := by
      refine renders_of_writes hx ?_
      by_cases hneeds : x.tree.needsRight x.operator
      · exact Or.inl (hn hneeds)
      · exact Or.inr (Tree.binds_of_not_needs_right hneeds)
    have hleft : Renders x.operator.precedence f t := ho.symm ▸ h
    exact ih (.binary x.operator (Nat.le_of_eq ho.symm) hleft hright)
      fun y hy => hlinks y (List.mem_cons_of_mem x hy)

/-- A formula that writes a tree is converted to the postorder of the tree, whatever
    parentheses it has beyond those that are needed. So two formulas that write one tree
    are converted to the same code, and operators of one level in a row take what stands
    to the left of them as their left operand. -/
theorem to_code_of_writes :
    (∀ {enclosed f t}, Writes enclosed f t → toCode f = .ok t.code) ∧
      (∀ {c d f g t}, Writes c f t → Writes d g t → toCode f = toCode g) ∧
      ∀ (level : Nat) {enclosed f t} {links : List Link}, Writes enclosed f t → (enclosed = true ∨ t.bindsAt level) →
        (∀ x ∈ links, x.operator.precedence = level ∧ x.Fits) →
        toCode (chainFormula f links) = .ok (chainTree t links).code := by
  have hcode : ∀ {enclosed f t}, Writes enclosed f t → toCode f = .ok t.code :=
    fun h => to_code_of_renders (renders_of_writes h (Or.inr (Tree.binds_at_zero _)))
  refine ⟨hcode, fun hf hg => (hcode hf).trans (hcode hg).symm, ?_⟩
  intro level enclosed f t links h hlevel hlinks
  exact to_code_of_renders (renders_chain (renders_of_writes h hlevel) hlinks)

/-- Parentheses that are needed on the right of a power, some that are not, and powers in
    a row. -/
theorem to_code_of_writes_powers :
    let inner : List Symbol := [.opening, .num 2, .op .pow, .opening, .opening, .num 3, .closing, .op .pow, .num 2,
      .closing, .closing]
    let tree : Tree := .binary .pow (.num 2) (.binary .pow (.num 3) (.num 2))
    let links : List Link := [⟨.pow, [.num 5], .num 5⟩, ⟨.pow, inner, tree⟩]
    Writes true inner tree ∧ toCode inner = .ok [.push 2, .push 3, .push 2, .apply .pow, .apply .pow] ∧
      toCode (chainFormula [.num 7] links) =
        .ok [.push 7, .push 5, .apply .pow, .push 2, .push 3, .push 2, .apply .pow, .apply .pow, .apply .pow] := by
  intro inner tree links
  have hpower : Writes false [.opening, .num 3, .closing, .op .pow, .num 2] (.binary .pow (.num 3) (.num 2)) :=
    .binary .pow (.group (.num 3)) (.num 2) (fun _ => rfl) False.elim
  have hinner : Writes true inner tree := .group (.binary .pow (.num 2) (.group hpower) False.elim fun _ => rfl)
  obtain ⟨hcode, -, hchain⟩ := to_code_of_writes
  refine ⟨hinner, hcode hinner, hchain 3 (.num 7) (Or.inr trivial) ?_⟩
  intro x hx
  simp only [links, List.mem_cons, List.not_mem_nil, or_false] at hx
  rcases hx with rfl | rfl
  · exact ⟨rfl, false, .num 5, False.elim⟩
  · exact ⟨rfl, true, hinner, fun _ => rfl⟩

end Reckon.Formula
