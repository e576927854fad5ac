/-
  Reckon.Proofs.Session.Budget — the same session under two limits on powers.

  A computation under the higher limit does what it does under the lower one, unless the
  lower one refuses a power (`Relaxed`). Each stage keeps this: only `power` looks at the
  limit, an overflow ends the run of the code, and no line that is refused touches the
  variables. So two sessions over the same lines have equal variables after every line,
  and an answer differs only where it is an overflow under the lower limit
  (`session_relaxed`).
-/

import Reckon.Arithmetic.Lemmas
import Reckon.Calculator
import Reckon.Proofs.Formula.Execution
import Reckon.Proofs.Session.Transcript

namespace Reckon

variable {α β : Type}

/-! ## Computations that differ by an overflow -/

/-- The second computation does what the first does, unless that one overflows. -/
def Relaxed (x y : Except Fault α) : Prop := x = y ∨ x = .error .arithmeticOverflow

theorem Relaxed.refl (x : Except Fault α) : Relaxed x x := Or.inl rfl

theorem Relaxed.bind {x y : Except Fault α} (h : Relaxed x y) {f g : α → Except Fault β}
    (hf : ∀ a, Relaxed (f a) (g a)) : Relaxed (x.bind f) (y.bind g) := by
  rcases h with rfl | rfl
  · cases x with
    | error fault => exact .refl _
    | ok a => exact hf a
  · exact Or.inr rfl

/-! ## The stages -/

variable {low high : Limits}

/-- The higher limit refuses no power that the lower one allows. -/
theorem power_relaxed (h : low.maxPowerBits ≤ high.maxPowerBits) (b e : Int) :
    Relaxed (power low b e) (power high b e) := by
  have hle : low.maxPowerBits.toNat ≤ high.maxPowerBits.toNat := UInt64.le_iff_toNat_le.mp h
  by_cases hexempt : b.natAbs ≤ 1 ∨ e < 0
  · obtain ⟨r, hr, -⟩ := power_exempt hexempt
    rw [hr low, hr high]
    exact .refl r
  · obtain ⟨hb, he⟩ := not_or.mp hexempt
    rw [power_checked low (by omega) (by omega), power_checked high (by omega) (by omega)]
    by_cases hrefused : UInt32.size ≤ e.toNat ∨ low.maxPowerBits.toNat < powerBits b e.toNat
    · exact Or.inr (if_pos hrefused)
    · rw [if_neg hrefused, if_neg (by omega)]
      exact .refl _

theorem apply_relaxed (h : low.maxPowerBits ≤ high.maxPowerBits) (o : Operator) (l r : Int) :
    Relaxed (o.apply low l r) (o.apply high l r) := by
  cases o with
  | add | sub | mul | div => exact .refl _
  | pow => exact power_relaxed h l r

namespace Formula

theorem exec_relaxed (h : low.maxPowerBits ≤ high.maxPowerBits) (stack : Stack Int) (i : Instr) :
    Relaxed (exec low stack i) (exec high stack i) := by
  cases i with
  | push v => exact .refl _
  | apply o =>
    rcases stack with _ | ⟨r, _ | ⟨l, below⟩⟩
    · exact .refl _
    · exact .refl _
    · simp only [exec]
      rcases apply_relaxed h o l r with ho | ho
      · rw [ho]
        exact .refl _
      · rw [ho]
        exact Or.inr rfl

theorem exec_all_relaxed (h : low.maxPowerBits ≤ high.maxPowerBits) (code : List Instr) (stack : Stack Int) :
    Relaxed (execAll low code stack) (execAll high code stack) := by
  induction code generalizing stack with
  | nil => exact .refl _
  | cons i code ih => exact (exec_relaxed h stack i).bind ih

theorem run_relaxed (h : low.maxPowerBits ≤ high.maxPowerBits) (code : List Instr) :
    Relaxed (run low code) (run high code) := by
  rw [run_eq, run_eq]
  exact (exec_all_relaxed h code Stack.empty).bind fun stack => .refl _

end Formula

theorem compute_tokens_relaxed (h : low.maxPowerBits ≤ high.maxPowerBits) (vars : Variables) (tokens : List Token) :
    Relaxed (computeTokens low vars tokens) (computeTokens high vars tokens) :=
  (Relaxed.refl (Formula.ofTokens vars tokens)).bind fun symbols =>
    (Relaxed.refl (Formula.toCode (Formula.settleSigns symbols))).bind (Formula.run_relaxed h)

/-! ## Lines -/

/-- The answers are the same, or the first is an overflow. -/
def SameOrOverflow (a b : Outcome) : Prop := a = b ∨ a = .refused .arithmeticOverflow

theorem enter_relaxed (h : low.maxPowerBits ≤ high.maxPowerBits) (vars : Variables) (line : String) :
    (enter low vars line).2 = (enter high vars line).2 ∧
      SameOrOverflow (enter low vars line).1 (enter high vars line).1 := by
  cases hl : Line.ofString line with
  | error fault => simp [enter, hl, SameOrOverflow]
  | ok l =>
    cases l with
    | blank | assignment => simp [enter, hl, SameOrOverflow]
    | expression tokens =>
      simp only [enter, hl]
      rcases compute_tokens_relaxed h vars tokens with ht | ht
      · rw [ht]
        exact ⟨rfl, Or.inl rfl⟩
      · rw [ht]
        refine ⟨?_, Or.inr rfl⟩
        cases computeTokens high vars tokens <;> rfl

/-! ## Sessions -/

/-- Calculators with these limits and the same variables. -/
def Twins (low high : Limits) (c d : Calculator) : Prop :=
  c.limits = low ∧ d.limits = high ∧ c.vars = d.vars

/-- A calculator never changes its limits, so twins stay twins. -/
theorem twins_enter (h : low.maxPowerBits ≤ high.maxPowerBits) (c d : Calculator) (line : String)
    (hcd : Twins low high c d) : Twins low high (c.enter line).2 (d.enter line).2 ∧
      SameOrOverflow (c.enter line).1 (d.enter line).1 := by
  obtain ⟨_, vars⟩ := c
  obtain ⟨_, _⟩ := d
  obtain ⟨rfl, rfl, rfl⟩ := hcd
  obtain ⟨hvars, hanswer⟩ := enter_relaxed h vars line
  exact ⟨⟨rfl, rfl, hvars⟩, hanswer⟩

/-- Raising the limit on powers leaves the variables of a session as they are after every
    line, and changes no answer but overflows. -/
theorem session_relaxed (h : low.maxPowerBits ≤ high.maxPowerBits) (vars : Variables) (lines : List String) :
    List.Forall₂ (fun a b => a.after = b.after ∧ SameOrOverflow a.answer b.answer)
        (transcript (enter low) vars lines) (transcript (enter high) vars lines) ∧
      List.Forall₂ (fun a b => a.after.vars = b.after.vars ∧ SameOrOverflow a.answer b.answer)
        (transcript Calculator.enter ⟨low, vars⟩ lines) (transcript Calculator.enter ⟨high, vars⟩ lines) := by
  constructor
  · refine transcript_lockstep ?_ rfl lines
    rintro s _ line rfl
    exact enter_relaxed h s line
  · have htwins : Twins low high ⟨low, vars⟩ ⟨high, vars⟩ := ⟨rfl, rfl, rfl⟩
    refine (transcript_lockstep (twins_enter h) htwins lines).imp ?_
    intro a b hab
    exact ⟨hab.1.2.2, hab.2⟩

/-- A power that 16 bits may not hold is refused under that limit only, and the lines
    after it come to the same. -/
theorem session_relaxed_overflow :
    let lines := ["x = 2", "x ^ 9", "y = x", "1 / (x - y)"]
    let low := transcript (enter ⟨16⟩) .empty lines
    let high := transcript (enter ⟨64⟩) .empty lines
    low.map (·.answer) = [.quiet, .refused .arithmeticOverflow, .quiet, .refused .divisionByZero] ∧
      high.map (·.answer) = [.quiet, .value 512, .quiet, .refused .divisionByZero] ∧
      List.Forall₂ (fun a b => a.after = b.after ∧ SameOrOverflow a.answer b.answer) low high := by
  intro lines low high
  refine ⟨by decide +kernel, by decide +kernel, ?_⟩
  exact (session_relaxed (by decide : (⟨16⟩ : Limits).maxPowerBits ≤ (⟨64⟩ : Limits).maxPowerBits) .empty lines).1

end Reckon
