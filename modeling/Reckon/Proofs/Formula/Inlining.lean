/-
  Reckon.Proofs.Formula.Inlining — a number and a group that spells it out.

  A sign before a number goes into the number, and a minus before a group makes a group
  of its own, so a formula and the one with some of its numbers spelled out as groups
  (`Inlined`) settle to different symbols and convert to different code. The difference
  stays where it arises: what waits in the two conversions is the same at every symbol
  and the code made so far does the same (`Alike`), so that both formulas have the same
  value or the same fault (`Inlined.value_eq`).
-/

import Reckon.Proofs.Formula.Execution
import Reckon.Proofs.Formula.Parentheses

namespace Reckon.Formula

variable (limits : Limits)

/-! ## Conversions that do the same -/

structure Alike (c d : Conversion) : Prop where
  waiting : c.waiting = d.waiting
  effect : SameEffect limits c.code.reverse d.code.reverse

/-- Both go wrong with the same fault, or come to conversions that are alike. -/
def Agree : Except Fault Conversion → Except Fault Conversion → Prop
  | .error f, .error g => f = g
  | .ok c, .ok d => Alike limits c d
  | _, _ => False

variable {limits}

theorem Alike.refl (c : Conversion) : Alike limits c c := ⟨rfl, .refl _⟩

theorem Alike.trans {c d e : Conversion} (h : Alike limits c d) (h' : Alike limits d e) : Alike limits c e :=
  ⟨h.waiting.trans h'.waiting, fun stack => (h.effect stack).trans (h'.effect stack)⟩

theorem Agree.trans {a b c : Except Fault Conversion} (h : Agree limits a b) (h' : Agree limits b c) :
    Agree limits a c := by
  cases a with
  | error f =>
    cases b with
    | error g => cases (h : f = g); exact h'
    | ok d => cases h
  | ok d =>
    cases b with
    | error g => cases h
    | ok e =>
      cases c with
      | error g => cases h'
      | ok e' => exact Alike.trans h h'

theorem Agree.bind {a b : Except Fault Conversion} (h : Agree limits a b)
    {f g : Conversion → Except Fault Conversion} (hf : ∀ c d, Alike limits c d → Agree limits (f c) (g d)) :
    Agree limits (a.bind f) (b.bind g) := by
  cases a with
  | error e =>
    cases b with
    | error e' => exact h
    | ok d => cases h
  | ok c =>
    cases b with
    | error e' => cases h
    | ok d => exact hf c d h

/-- The same instructions after code that does the same. -/
theorem same_effect_cons {code code' : List Instr} (h : SameEffect limits code.reverse code'.reverse) (i : Instr) :
    SameEffect limits (i :: code).reverse (i :: code').reverse := by
  rw [List.reverse_cons, List.reverse_cons]
  exact h.append (.refl [i])

theorem alike_release (level : Nat) (w : Stack Waiting) {code code' : List Instr}
    (h : SameEffect limits code.reverse code'.reverse) :
    Alike limits (Conversion.release level code w) (Conversion.release level code' w) := by
  induction w generalizing code code' with
  | nil => exact ⟨rfl, h⟩
  | cons x w ih =>
    cases x with
    | opening => exact ⟨rfl, h⟩
    | op o =>
      simp only [Conversion.release]
      split
      · exact ⟨rfl, h⟩
      · exact ih (same_effect_cons h (.apply o))

theorem agree_leave (w : Stack Waiting) {code code' : List Instr}
    (h : SameEffect limits code.reverse code'.reverse) :
    Agree limits (Conversion.leave code w) (Conversion.leave code' w) := by
  induction w generalizing code code' with
  | nil => rfl
  | cons x w ih =>
    cases x with
    | opening => exact ⟨rfl, h⟩
    | op o => exact ih (same_effect_cons h (.apply o))

theorem agree_step {c d : Conversion} (h : Alike limits c d) (x : Symbol) : Agree limits (c.step x) (d.step x) := by
  obtain ⟨code, w⟩ := c
  obtain ⟨code', w'⟩ := d
  obtain ⟨rfl, he⟩ := h
  cases x with
  | num v => exact ⟨rfl, same_effect_cons he (.push v)⟩
  | op o =>
    obtain ⟨hw, hc⟩ := alike_release o.precedence w he
    exact ⟨congrArg (Stack.push · (Waiting.op o)) hw, hc⟩
  | opening => exact ⟨rfl, he⟩
  | closing => exact agree_leave w he

theorem agree_read {c d : Conversion} (h : Alike limits c d) (l : List Symbol) :
    Agree limits (c.read l) (d.read l) := by
  induction l generalizing c d with
  | nil => exact h
  | cons x l ih => exact (agree_step h x).bind fun _ _ h => ih h

/-- The values that two conversions that are alike come to. -/
theorem finish_alike (w : Stack Waiting) {code code' : List Instr}
    (h : SameEffect limits code.reverse code'.reverse) :
    (Conversion.finish code w).bind (run limits) = (Conversion.finish code' w).bind (run limits) := by
  induction w generalizing code code' with
  | nil => exact h.run
  | cons x w ih =>
    cases x with
    | opening => rfl
    | op o => exact ih (same_effect_cons h (.apply o))

/-! ## Numbers spelled out -/

/-- The symbols that spell an integer. -/
def spelling : Int → List Symbol
  | .ofNat n => [.num n]
  | .negSucc n => [.op .sub, .num (n + 1 : Nat)]

/-- A formula, and the same with some of its numbers spelled out as groups. -/
inductive Inlined : List Symbol → List Symbol → Prop where
  | nil : Inlined [] []
  | same (x : Symbol) {a b : List Symbol} : Inlined a b → Inlined (x :: a) (x :: b)
  | number (v : Int) {a b : List Symbol} : Inlined a b →
      Inlined (.num v :: a) (.opening :: (spelling v ++ .closing :: b))

theorem settle_spelling (p : Place) (gs : List Bool) (v : Int) (l : List Symbol) :
    Settling.settle ⟨p, gs⟩ (.opening :: (spelling v ++ .closing :: l)) =
      p.opened ++ .num v :: (Settling.closed (p.negates :: gs) ++ Settling.settle ⟨.after, gs⟩ l) := by
  cases v with
  | ofNat n =>
    simp only [spelling, List.singleton_append, Settling.settle_cons]
    rfl
  | negSucc n =>
    simp only [spelling, List.cons_append, List.nil_append, Settling.settle_cons]
    rfl

theorem run_negation (v : Int) : run limits [.push 0, .push v, .apply .sub] = .ok (-v) :=
  congrArg Except.ok (Int.zero_sub v)

/-- A number and the group that spells it are converted to code that does the same. -/
theorem agree_number (p : Place) (gs : List Bool) (v : Int) (c : Conversion) :
    Agree limits (c.read (p.number v)) (c.read (p.opened ++ .num v :: Settling.closed (p.negates :: gs))) := by
  have group : ∀ c : Conversion,
      Agree limits (c.read [.num v]) (c.read (.opening :: ([.num v] ++ [.closing]))) := by
    intro c
    have hv : toCode [.num v] = .ok [.push v] := rfl
    rw [Conversion.read_group hv]
    exact Alike.refl _
  cases p with
  | after | before => exact group c
  | binary m => exact (agree_step (.refl c) (.op (signOf m))).bind fun d e h => (agree_read h _).trans (group e)
  | unary m =>
    by_cases hm : signOf m = .sub
    · simp only [Place.number, Place.opened, Place.negates, hm, if_true, decide_true]
      have hv : toCode [.num 0, .op .sub, .opening, .num v, .closing] = .ok [.push 0, .push v, .apply .sub] := rfl
      show Agree limits (c.read [.num (-v)])
        (c.read (.opening :: ([.num 0, .op .sub, .opening, .num v, .closing] ++ [.closing])))
      rw [Conversion.read_group hv]
      refine ⟨rfl, ?_⟩
      show SameEffect limits (.push (-v) :: c.code).reverse ([Instr.apply .sub, .push v, .push 0] ++ c.code).reverse
      rw [List.reverse_append, List.reverse_cons]
      exact (SameEffect.refl _).append fun stack => (same_effect_push (run_negation v) stack).symm
    · simp only [Place.number, Place.opened, Place.negates, hm, if_false, decide_false]
      exact group c

theorem Inlined.agree {a b : List Symbol} (h : Inlined a b) (s : Settling) {c d : Conversion}
    (hc : Alike limits c d) : Agree limits (c.read (s.settle a)) (d.read (s.settle b)) := by
  induction h generalizing s c d with
  | nil => exact agree_read hc _
  | same x h ih =>
    rw [Settling.settle_cons, Settling.settle_cons, Conversion.read_append, Conversion.read_append]
    exact (agree_read hc _).bind fun _ _ h => ih _ h
  | @number v a b h ih =>
    obtain ⟨p, gs⟩ := s
    rw [settle_spelling, Settling.settle_cons, ← List.cons_append, ← List.append_assoc, Conversion.read_append,
      Conversion.read_append]
    exact ((agree_read hc _).trans (agree_number p gs v d)).bind fun _ _ h => ih ⟨.after, gs⟩ h

theorem Inlined.value_eq {a b : List Symbol} (h : Inlined a b) : value limits a = value limits b := by
  have hr : Agree limits _ _ := h.agree Settling.start (.refl Conversion.start)
  rw [value, value, settle_signs_eq, settle_signs_eq, Conversion.to_code_eq, Conversion.to_code_eq]
  cases ha : Conversion.start.read (Settling.start.settle a) with
  | error f =>
    cases hb : Conversion.start.read (Settling.start.settle b) with
    | error g => rw [ha, hb] at hr; exact congrArg Except.error hr
    | ok d => rw [ha, hb] at hr; cases hr
  | ok c =>
    cases hb : Conversion.start.read (Settling.start.settle b) with
    | error g => rw [ha, hb] at hr; cases hr
    | ok d =>
      rw [ha, hb] at hr
      have hf := finish_alike c.waiting hr.effect
      rw [hr.waiting] at hf
      show (Conversion.finish c.code c.waiting).bind (run limits) = (Conversion.finish d.code d.waiting).bind _
      rw [hr.waiting]
      exact hf

end Reckon.Formula
