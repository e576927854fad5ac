/-
  Reckon.Proofs.Formula.Postorder — what a run of any code comes to.

  Code is the postorder of at most one tree, and of one exactly if its numbers and
  operators are in supply: every beginning that ends with an operator has more numbers
  than operators, and in all there is one number more (`Supplied`). The tree is found by
  putting trees together on a stack as the run does with values (`grow`).

  A run of a postorder comes to the value of its tree. A run of any other code comes to no
  value: the first operator that fails on its two operands decides the fault, and where
  none does the code itself is at fault (`run_postorder`). An operator that fails is
  reached by the run, so no operator before it, nor itself, was short of operands
  (`lt_of_fails`).
-/

import Reckon.Proofs.Formula.Matching
import Reckon.Proofs.Formula.Surplus

namespace Reckon.Formula

/-! ## Numbers and operators in supply -/

structure Supplied (code : List Instr) : Prop where
  /-- Up to an operator, itself included, there are more numbers than operators. -/
  enough : ∀ (before after : List Instr) (o : Operator), code = before ++ .apply o :: after →
    (operations (before ++ [Instr.apply o])).length < (operands (before ++ [Instr.apply o])).length
  /-- In all there is one number more. -/
  single : (operands code).length = (operations code).length + 1

theorem gain_eq (code : List Instr) : gain code = (operands code).length - (operations code).length := by
  induction code with
  | nil => rfl
  | cons i code ih =>
    cases i with
    | push v =>
      simp only [gain, Instr.weight, ih, operands, operations, List.filterMap_cons, Instr.operator?, List.length_cons]
      omega
    | apply o =>
      simp only [gain, Instr.weight, ih, operands, operations, List.filterMap_cons, Instr.operator?, List.length_cons]
      omega

/-- An operator leaves a value if it found two. -/
theorem two_le_gain_iff {before : List Instr} {o : Operator} : 2 ≤ gain before ↔
    (operations (before ++ [Instr.apply o])).length < (operands (before ++ [Instr.apply o])).length := by
  have h := gain_eq (before ++ [Instr.apply o])
  rw [gain_append] at h
  simp only [gain, Instr.weight] at h
  omega

/-! ## Putting trees together -/

/-- The trees that are left on a stack of trees, if every operator finds two. -/
def grow : List Instr → Stack Tree → Option (Stack Tree)
  | [], trees => some trees
  | .push v :: code, trees => grow code (trees.push (.num v))
  | .apply o :: code, right :: left :: trees => grow code (Stack.push trees (.binary o left right))
  | .apply _ :: _, _ => none

theorem grow_code (t : Tree) (code : List Instr) (trees : Stack Tree) :
    grow (t.code ++ code) trees = grow code (t :: trees) := by
  induction t generalizing code trees with
  | num v => rfl
  | binary o l r ihl ihr =>
    simp only [Tree.code, List.append_assoc, ihl, ihr]
    rfl

theorem code_injective {t u : Tree} (h : t.code = u.code) : t = u := by
  have ht := grow_code t [] []
  have hu := grow_code u [] []
  rw [h] at ht
  rw [ht] at hu
  simpa [grow] using hu

/-- The trees on the stack spell the code, the one on top last. -/
theorem spells_of_grow {code : List Instr} {trees trees' : Stack Tree} (h : grow code trees = some trees') :
    trees'.reverse.flatMap Tree.code = trees.reverse.flatMap Tree.code ++ code := by
  induction code generalizing trees with
  | nil =>
    cases h
    exact (List.append_nil _).symm
  | cons i code ih =>
    cases i with
    | push v =>
      rw [ih h]
      simp [Stack.push, Tree.code]
    | apply o =>
      rcases trees with _ | ⟨right, _ | ⟨left, trees⟩⟩
      · cases h
      · cases h
      · rw [ih h]
        simp [Stack.push, Tree.code]

theorem length_of_grow {code : List Instr} {trees trees' : Stack Tree} (h : grow code trees = some trees') :
    (trees'.length : Int) = trees.length + gain code := by
  induction code generalizing trees with
  | nil =>
    cases h
    simp [gain]
  | cons i code ih =>
    cases i with
    | push v =>
      have := ih h
      simp only [Stack.push, gain, Instr.weight, List.length_cons] at this ⊢
      omega
    | apply o =>
      rcases trees with _ | ⟨right, _ | ⟨left, trees⟩⟩
      · cases h
      · cases h
      · have := ih h
        simp only [Stack.push, gain, Instr.weight, List.length_cons] at this ⊢
        omega

theorem forall_operator_cons {P : List Instr → Prop} {i : Instr} {code : List Instr} :
    (∀ (before after : List Instr) (o : Operator), i :: code = before ++ .apply o :: after → P before) ↔
      (∀ o, i = .apply o → P []) ∧
        ∀ (before after : List Instr) (o : Operator), code = before ++ .apply o :: after → P (i :: before) := by
  constructor
  · intro h
    exact ⟨fun o hi => h [] code o (hi ▸ rfl), fun before after o hcode =>
      h (i :: before) after o (congrArg (i :: ·) hcode)⟩
  · intro ⟨hfirst, hrest⟩ before after o hcode
    cases before with
    | nil => exact hfirst o (List.cons.inj hcode).1
    | cons j before =>
      obtain ⟨rfl, hrest'⟩ := List.cons.inj hcode
      exact hrest before after o hrest'

/-- Trees can be put together exactly if every operator finds two values by the count. -/
theorem grow_eq_some_iff {code : List Instr} {trees : Stack Tree} :
    (∃ trees', grow code trees = some trees') ↔
      ∀ (before after : List Instr) (o : Operator), code = before ++ .apply o :: after →
        2 ≤ trees.length + gain before := by
  induction code generalizing trees with
  | nil => simp [grow]
  | cons i code ih =>
    rw [forall_operator_cons]
    cases i with
    | push v =>
      rw [grow, ih]
      simp [gain, Instr.weight, Stack.push, Int.add_assoc]
    | apply o =>
      rcases trees with _ | ⟨right, _ | ⟨left, trees⟩⟩
      · simp [grow, gain]
      · simp [grow, gain]
      · have hcount : ∀ k : Int, 2 + (-1 + k) = 1 + k := by omega
        rw [grow, ih]
        simp [gain, Instr.weight, Stack.push, Int.add_assoc, hcount]

theorem exists_tree_iff (code : List Instr) : (∃ t : Tree, t.code = code) ↔ Supplied code := by
  have hgain := gain_eq code
  constructor
  · intro ⟨t, ht⟩
    have hgrow : grow code [] = some [t] := by
      have := grow_code t [] []
      rw [List.append_nil, ht] at this
      exact this
    have hlength := length_of_grow hgrow
    simp only [List.length_singleton, List.length_nil] at hlength
    refine ⟨?_, by omega⟩
    intro before after o hcode
    have := grow_eq_some_iff.mp ⟨_, hgrow⟩ before after o hcode
    exact two_le_gain_iff.mp (by simpa using this)
  · intro h
    have hsingle := h.single
    have hgrows : ∃ trees, grow code [] = some trees := by
      refine grow_eq_some_iff.mpr ?_
      intro before after o hcode
      simpa using two_le_gain_iff.mpr (h.enough before after o hcode)
    obtain ⟨trees, hgrow⟩ := hgrows
    have hlength := length_of_grow hgrow
    simp only [List.length_nil] at hlength
    obtain ⟨t, rfl⟩ := List.length_eq_one_iff.mp (show trees.length = 1 by omega)
    exact ⟨t, by simpa using spells_of_grow hgrow⟩

/-! ## Operators that fail, and operators that lack an operand -/

theorem fault_of_apply {limits : Limits} {o : Operator} {l r : Int} {fault : Fault}
    (h : o.apply limits l r = .error fault) : fault = .divisionByZero ∨ fault = .arithmeticOverflow := by
  cases o with
  | add | sub | mul => cases h
  | div =>
    simp only [Operator.apply] at h
    split at h <;> cases h
    exact Or.inl rfl
  | pow =>
    simp only [Operator.apply, power] at h
    repeat' split at h
    all_goals cases h
    · exact Or.inl rfl
    · exact Or.inr rfl

/-- Arithmetic does not find fault with the code. -/
theorem apply_ne_invalid (limits : Limits) (o : Operator) (l r : Int) :
    o.apply limits l r ≠ .error .invalidExpression := by
  intro h
  rcases fault_of_apply h with h | h <;> cases h

/-- A run gets to the instruction at position `n`, an operator, which finds two values and
    fails on them. -/
def Fails (limits : Limits) (code : List Instr) (n : Nat) (fault : Fault) : Prop :=
  ∃ (before after : List Instr) (o : Operator) (left right : Int) (below : Stack Int),
    code = before ++ .apply o :: after ∧ before.length = n ∧
      execAll limits before Stack.empty = .ok (right :: left :: below) ∧ o.apply limits left right = .error fault

/-- The instruction at position `n` is an operator that there is no value for by the count. -/
def Underflows (code : List Instr) (n : Nat) : Prop :=
  ∃ (before after : List Instr) (o : Operator), code = before ++ .apply o :: after ∧ before.length = n ∧
    (operands (before ++ [Instr.apply o])).length ≤ (operations (before ++ [Instr.apply o])).length

variable {limits : Limits}

/-- What has run found its operands. -/
theorem two_le_gain_of_exec {before after : List Instr} {o : Operator} {stack : Stack Int}
    (h : execAll limits (before ++ .apply o :: after) [] = .ok stack) : 2 ≤ gain before := by
  rw [exec_all_append] at h
  obtain ⟨s, hbefore, hrest⟩ := bind_eq_ok h
  have hlength := length_exec_all hbefore
  rw [exec_all_cons] at hrest
  rcases s with _ | ⟨right, _ | ⟨left, below⟩⟩
  · cases hrest
  · cases hrest
  · simp only [List.length_cons, List.length_nil] at hlength
    omega

theorem ne_invalid_of_fails {code : List Instr} {n : Nat} {fault : Fault} (h : Fails limits code n fault) :
    fault ≠ .invalidExpression := by
  obtain ⟨_, _, o, left, right, _, _, _, _, hfault⟩ := h
  rintro rfl
  exact apply_ne_invalid limits o left right hfault

theorem lt_of_fails {code : List Instr} {n m : Nat} {fault : Fault} (h : Fails limits code n fault)
    (hm : Underflows code m) : n < m := by
  obtain ⟨before, after, o, left, right, below, rfl, rfl, hrun, -⟩ := h
  obtain ⟨before', after', o', hcode, rfl, hshort⟩ := hm
  have hgain : ¬2 ≤ gain before' := fun h => absurd (two_le_gain_iff.mp h) (Nat.not_lt.mpr hshort)
  have hfound : 2 ≤ gain before := by
    have hlength := length_exec_all hrun
    simp only [Stack.empty, List.length_cons, List.length_nil] at hlength
    omega
  -- an operator short of operands is not the one that fails, and not one that has run
  refine Nat.lt_of_not_le fun hle => hgain ?_
  rcases List.append_eq_append_iff.mp hcode with ⟨mid, rfl, -⟩ | ⟨mid, rfl, hmid⟩
  · rw [List.length_append] at hle
    obtain rfl := List.length_eq_zero_iff.mp (show mid.length = 0 by omega)
    rwa [List.append_nil]
  · cases mid with
    | nil => rwa [List.append_nil] at hfound
    | cons i mid =>
      obtain ⟨rfl, -⟩ := List.cons.inj hmid
      exact two_le_gain_of_exec hrun

theorem run_of_fails {code : List Instr} {n : Nat} {fault : Fault} (h : Fails limits code n fault) :
    run limits code = .error fault := by
  obtain ⟨before, after, o, left, right, below, rfl, -, hrun, hfault⟩ := h
  rw [run_eq, exec_all_append, hrun]
  show ((exec limits (right :: left :: below) (.apply o)).bind (execAll limits after)).bind _ = _
  simp only [exec, hfault]
  rfl

/-- The first instruction that goes wrong, and what ran before it. -/
theorem exec_all_error {code : List Instr} {stack : Stack Int} {fault : Fault}
    (h : execAll limits code stack = .error fault) :
    ∃ before i after s, code = before ++ i :: after ∧ execAll limits before stack = .ok s ∧
      exec limits s i = .error fault := by
  induction code generalizing stack with
  | nil => cases h
  | cons i code ih =>
    rw [exec_all_cons] at h
    cases hi : exec limits stack i with
    | error f =>
      rw [hi] at h
      cases h
      exact ⟨[], i, code, stack, rfl, rfl, hi⟩
    | ok s =>
      rw [hi] at h
      obtain ⟨before, j, after, s', rfl, hbefore, hj⟩ := ih h
      refine ⟨i :: before, j, after, s', rfl, ?_, hj⟩
      rw [exec_all_cons, hi]
      exact hbefore

/-- The code is at fault, or an operator that fails is. -/
theorem fails_of_run_error {code : List Instr} {fault : Fault} (h : run limits code = .error fault) :
    fault = .invalidExpression ∨ ∃ n, Fails limits code n fault := by
  rw [run_eq] at h
  cases hrun : execAll limits code Stack.empty with
  | ok s =>
    rw [hrun] at h
    rcases s with _ | ⟨v, _ | ⟨w, s⟩⟩ <;> cases h
    · exact Or.inl rfl
    · exact Or.inl rfl
  | error f =>
    rw [hrun] at h
    cases h
    obtain ⟨before, i, after, s, rfl, hbefore, hi⟩ := exec_all_error hrun
    cases i with
    | push v => cases hi
    | apply o =>
      rcases s with _ | ⟨right, _ | ⟨left, below⟩⟩
      · cases hi
        exact Or.inl rfl
      · cases hi
        exact Or.inl rfl
      · refine Or.inr ⟨before.length, before, after, o, left, right, below, rfl, rfl, hbefore, ?_⟩
        simp only [exec] at hi
        cases ho : o.apply limits left right with
        | ok v => rw [ho] at hi; cases hi
        | error f' => rw [ho] at hi; cases hi; rfl

theorem fault_of_run {code : List Instr} {fault : Fault} (h : run limits code = .error fault) :
    fault = .invalidExpression ∨ fault = .divisionByZero ∨ fault = .arithmeticOverflow := by
  rcases fails_of_run_error h with h | ⟨n, -, -, o, left, right, -, -, -, -, hfault⟩
  · exact Or.inl h
  · exact Or.inr (fault_of_apply hfault)

theorem supplied_of_run {code : List Instr} {v : Int} (h : run limits code = .ok v) : Supplied code := by
  have hrun := (run_eq_ok_iff limits).mp h
  have hlength := length_exec_all hrun
  have hgain := gain_eq code
  simp only [List.length_singleton, List.length_nil] at hlength
  refine ⟨?_, by omega⟩
  intro before after o hcode
  rw [hcode] at hrun
  exact two_le_gain_iff.mp (two_le_gain_of_exec hrun)

theorem run_eq_invalid_iff {code : List Instr} (hvalue : ∀ v, run limits code ≠ .ok v) :
    run limits code = .error .invalidExpression ↔ ¬∃ n fault, Fails limits code n fault := by
  constructor
  · intro h ⟨n, fault, hfails⟩
    have hfault := run_of_fails hfails
    rw [h] at hfault
    cases hfault
    exact ne_invalid_of_fails hfails rfl
  · intro h
    cases hrun : run limits code with
    | ok v => exact absurd hrun (hvalue v)
    | error fault =>
      rcases fails_of_run_error hrun with rfl | ⟨n, hfails⟩
      · rfl
      · exact absurd ⟨n, fault, hfails⟩ h

theorem Tree.value_ne_invalid (t : Tree) : t.value limits ≠ .error .invalidExpression := by
  induction t with
  | num v =>
    intro h
    cases h
  | binary o l r ihl ihr =>
    intro h
    simp only [Tree.value] at h
    cases hl : l.value limits with
    | error f =>
      rw [hl] at h
      cases h
      exact ihl hl
    | ok a =>
      rw [hl] at h
      cases hr : r.value limits with
      | error f =>
        rw [hr] at h
        cases h
        exact ihr hr
      | ok b =>
        rw [hr] at h
        exact apply_ne_invalid limits o a b h

theorem run_of_supplied {code : List Instr} (h : Supplied code) (hnone : ∀ n fault, ¬Fails limits code n fault) :
    ∃ v, run limits code = .ok v := by
  obtain ⟨t, rfl⟩ := (exists_tree_iff code).mpr h
  cases hrun : run limits t.code with
  | ok v => exact ⟨v, rfl⟩
  | error fault =>
    rcases fails_of_run_error hrun with rfl | ⟨n, hfails⟩
    · exact absurd ((t.run_code limits).symm.trans hrun) t.value_ne_invalid
    · exact absurd hfails (hnone n fault)

/-- The postorder of a tree, of which there is one only, runs to the value of the tree or
    to the first fault in it. Any other code runs to a fault: to that of an operator that
    fails on its two operands before any operator lacks one, or else to that of an invalid
    expression. Whether code is a postorder, and so whether it has a value when no operator
    fails, shows in the counts of its numbers and operators. -/
theorem run_postorder (limits : Limits) (code : List Instr) :
    (∀ t : Tree, t.code = code → run limits code = t.value limits ∧ ∀ u : Tree, u.code = code → u = t) ∧
      ((∀ t : Tree, t.code ≠ code) →
        (∀ v, run limits code ≠ .ok v) ∧
          (run limits code = .error .invalidExpression ↔
            ¬∃ n fault, Fails limits code n fault ∧ ∀ m, Underflows code m → n < m) ∧
          ∀ n fault, Fails limits code n fault → run limits code = .error fault) ∧
      ((∃ t : Tree, t.code = code) ↔ Supplied code) ∧
      ((∀ n fault, ¬Fails limits code n fault) → ((∃ v, run limits code = .ok v) ↔ Supplied code)) := by
  refine ⟨?_, ?_, exists_tree_iff code, ?_⟩
  · intro t ht
    subst ht
    exact ⟨t.run_code limits, fun u hu => code_injective hu⟩
  · intro hnone
    have hvalue : ∀ v, run limits code ≠ .ok v := by
      intro v h
      obtain ⟨t, ht⟩ := (exists_tree_iff code).mpr (supplied_of_run h)
      exact hnone t ht
    have hearly : (∃ n fault, Fails limits code n fault) ↔
        ∃ n fault, Fails limits code n fault ∧ ∀ m, Underflows code m → n < m :=
      exists_congr fun n => exists_congr fun fault => ⟨fun h => ⟨h, fun m => lt_of_fails h⟩, And.left⟩
    rw [← hearly]
    exact ⟨hvalue, run_eq_invalid_iff hvalue, fun n fault => run_of_fails⟩
  · intro hnone
    exact ⟨fun ⟨v, h⟩ => supplied_of_run h, fun h => run_of_supplied h hnone⟩

/-- The postorder of `(7 - 2) / -2`; a division by zero before an operator that lacks an
    operand; and the same two the other way round. -/
theorem run_postorder_race :
    let good : List Instr := [.push 7, .push 2, .apply .sub, .push (-2), .apply .div]
    let early : List Instr := [.push 1, .push 0, .apply .div, .apply .add]
    let late : List Instr := [.push 1, .apply .add, .push 1, .push 0, .apply .div]
    run {} good = .ok (-2) ∧ Supplied good ∧ Fails {} early 2 .divisionByZero ∧ Underflows early 3 ∧
      run {} early = .error .divisionByZero ∧ Underflows late 1 ∧ run {} late = .error .invalidExpression := by
  intro good early late
  have htree : (Tree.binary .div (.binary .sub (.num 7) (.num 2)) (.num (-2))).code = good := rfl
  have hgood : run {} good = .ok (-2) := ((run_postorder {} good).1 _ htree).1.trans rfl
  have hnone : ∀ n fault, ¬Fails {} good n fault := by
    intro n fault h
    have hfault := run_of_fails h
    rw [hgood] at hfault
    cases hfault
  have hsupplied := ((run_postorder {} good).2.2.2 hnone).mp ⟨_, hgood⟩
  have hfails : Fails {} early 2 .divisionByZero :=
    ⟨[.push 1, .push 0], [.apply .add], .div, 1, 0, [], rfl, rfl, rfl, rfl⟩
  have hshort : Underflows early 3 := ⟨[.push 1, .push 0, .apply .div], [], .add, rfl, rfl, by decide⟩
  have hfirst : Underflows late 1 := ⟨[.push 1], [.push 1, .push 0, .apply .div], .add, rfl, rfl, by decide⟩
  have hno_tree : ∀ code : List Instr, ¬Supplied code → ∀ t : Tree, t.code ≠ code :=
    fun code h t ht => h ((run_postorder {} code).2.2.1.mp ⟨t, ht⟩)
  have hearly := (run_postorder {} early).2.1 (hno_tree early fun h => absurd h.single (by decide))
  have hlate := (run_postorder {} late).2.1 (hno_tree late fun h =>
    absurd (h.enough [.push 1] [.push 1, .push 0, .apply .div] .add rfl) (by decide))
  refine ⟨hgood, hsupplied, hfails, hshort, hearly.2.2 2 _ hfails, hfirst, hlate.2.1.mpr ?_⟩
  intro ⟨n, fault, hn, hbefore⟩
  have hzero : n < 1 := hbefore 1 hfirst
  obtain ⟨before, after, o, _, _, _, hcode, hlength, _⟩ := hn
  obtain rfl := List.length_eq_zero_iff.mp (show before.length = 0 by omega)
  exact Instr.noConfusion (List.cons.inj hcode).1

end Reckon.Formula
