/-
  Reckon.Proofs.Formula.Parentheses — which formulas have matching parentheses.

  - `balance_settle`: settling the signs neither makes nor hides a parenthesis that does
    not match.
  - `balance_read`: a conversion goes wrong exactly at such a parenthesis.
  - `settle_below`: settling the signs of a formula whose parentheses match touches no
    group around it.
-/

import Reckon.Proofs.Formula.Conversion
import Reckon.Proofs.Formula.Execution
import Reckon.Proofs.Formula.Settling

namespace Reckon.Formula

/-- The parentheses open after a formula if `n` are open before it; `none` if one closes
    nothing. -/
def balance : Nat → List Symbol → Option Nat
  | n, [] => some n
  | n, .opening :: l => balance (n + 1) l
  | 0, .closing :: _ => none
  | n + 1, .closing :: l => balance n l
  | n, .num _ :: l => balance n l
  | n, .op _ :: l => balance n l

def Balanced (l : List Symbol) : Prop := balance 0 l = some 0

/-! ## Settling the signs -/

namespace Settling

@[simp] theorem balance_held (p : Place) (n : Nat) (l : List Symbol) : balance n (p.held ++ l) = balance n l := by
  cases p <;> rfl

@[simp] theorem balance_number (p : Place) (v : Int) (n : Nat) (l : List Symbol) :
    balance n (p.number v ++ l) = balance n l := by
  cases p <;> rfl

theorem balance_opened (p : Place) (gs : List Bool) (l : List Symbol) :
    balance (depth gs) (p.opened ++ l) = balance (depth (p.negates :: gs)) l := by
  cases p with
  | unary m =>
    by_cases h : signOf m = .sub
    · simp [Place.opened, Place.negates, h, balance, depth]
    · simp [Place.opened, Place.negates, h, balance, depth]
  | after | before | binary m => rfl

theorem balance_settle (s : Settling) (l : List Symbol) :
    balance (depth s.groups) (s.settle l) =
      (balance s.groups.length l).map fun _ => depth (s.after l).groups := by
  induction l generalizing s with
  | nil => simpa [settle, writes, after, balance] using balance_held s.place (depth s.groups) []
  | cons x l ih =>
    rw [settle_cons]
    cases x with
    | num v =>
      rw [show s.read (.num v) = (s.place.number v, ⟨.after, s.groups⟩) from rfl, balance_number]
      exact ih ⟨.after, s.groups⟩
    | op o =>
      by_cases ho : o.isSign = true
      · simp only [after, List.foldl_cons, read_sign ho]
        exact ih ⟨s.place.sign o, s.groups⟩
      · simp only [after, List.foldl_cons, read_operator ho, List.append_assoc, balance_held]
        exact ih ⟨.before, s.groups⟩
    | opening =>
      rw [show s.read .opening = (s.place.opened, ⟨.before, s.place.negates :: s.groups⟩) from rfl, balance_opened]
      exact ih ⟨.before, s.place.negates :: s.groups⟩
    | closing =>
      obtain ⟨p, gs⟩ := s
      rw [show (read ⟨p, gs⟩ .closing) = (p.held ++ closed gs, ⟨.after, gs.tail⟩) from rfl, List.append_assoc,
        balance_held]
      rcases gs with _ | ⟨_ | _, gs⟩
      · rfl
      · exact ih ⟨.after, gs⟩
      · exact ih ⟨.after, gs⟩

theorem length_groups {s : Settling} {l : List Symbol} {m : Nat} (h : balance s.groups.length l = some m) :
    (s.after l).groups.length = m := by
  induction l generalizing s with
  | nil => cases h; rfl
  | cons x l ih =>
    cases x with
    | num v => exact ih (s := ⟨.after, s.groups⟩) h
    | op o =>
      by_cases ho : o.isSign = true
      · simp only [after, List.foldl_cons, read_sign ho]
        exact ih (s := ⟨s.place.sign o, s.groups⟩) h
      · simp only [after, List.foldl_cons, read_operator ho]
        exact ih (s := ⟨.before, s.groups⟩) h
    | opening => exact ih (s := ⟨.before, s.place.negates :: s.groups⟩) h
    | closing =>
      obtain ⟨p, gs⟩ := s
      cases gs with
      | nil => cases h
      | cons g gs => exact ih (s := ⟨.after, gs⟩) h

@[simp] theorem depth_eq_zero {gs : List Bool} : depth gs = 0 ↔ gs = [] := by
  rcases gs with _ | ⟨_ | _, _⟩ <;> simp [depth]

/-- What a machine with more groups around the open ones does. -/
def within (gs : List Bool) (s : Settling) : Settling := { s with groups := s.groups ++ gs }

theorem settle_below {s : Settling} {l : List Symbol} {m : Nat} (h : balance s.groups.length l = some m)
    (gs : List Bool) : (s.within gs).writes l = s.writes l ∧ (s.within gs).after l = (s.after l).within gs := by
  induction l generalizing s with
  | nil => exact ⟨rfl, rfl⟩
  | cons x l ih =>
    have step : (s.within gs).read x = ((s.read x).1, (s.read x).2.within gs) ∧
        balance (s.read x).2.groups.length l = some m := by
      cases x with
      | num v => exact ⟨rfl, h⟩
      | op o =>
        simp only [read]
        split
        · exact ⟨rfl, h⟩
        · exact ⟨rfl, h⟩
      | opening => exact ⟨rfl, h⟩
      | closing =>
        obtain ⟨p, _ | ⟨g, gs'⟩⟩ := s
        · cases h
        · exact ⟨by cases g <;> rfl, h⟩
    obtain ⟨h1, h2⟩ := ih step.2
    simp only [writes, after, List.foldl_cons, step.1]
    exact ⟨by rw [h1], h2⟩

end Settling

/-- What stands around a group comes out the same, whatever the group is. -/
theorem settle_context (a b : List Symbol) :
    ∃ before after, ∀ g, Balanced g →
      settleSigns (a ++ .opening :: (g ++ .closing :: b)) =
        before ++ .opening :: (settleSigns g ++ .closing :: after) := by
  obtain ⟨p, gs, hs⟩ : ∃ p gs, Settling.start.after a = ⟨p, gs⟩ := ⟨_, _, rfl⟩
  have hopen : p.opened = p.opened.dropLast ++ [.opening] := by
    cases p with
    | unary m => by_cases h : signOf m = .sub <;> simp [Place.opened, h]
    | after | before | binary m => rfl
  have hclose : Settling.closed (p.negates :: gs) = .closing :: (Settling.closed (p.negates :: gs)).tail := by
    cases p.negates <;> rfl
  refine ⟨Settling.start.writes a ++ p.opened.dropLast,
    (Settling.closed (p.negates :: gs)).tail ++ Settling.settle ⟨.after, gs⟩ b, ?_⟩
  intro g hg
  obtain ⟨hw, hl⟩ := Settling.settle_below (s := Settling.start) hg (p.negates :: gs)
  have hgroups : (Settling.start.after g).groups = [] :=
    List.length_eq_zero_iff.mp (Settling.length_groups (s := Settling.start) hg)
  have hin : Settling.read ⟨p, gs⟩ .opening = (p.opened, Settling.start.within (p.negates :: gs)) := rfl
  have hout : ((Settling.start.after g).within (p.negates :: gs)).read .closing =
      ((Settling.start.after g).place.held ++ Settling.closed (p.negates :: gs), ⟨.after, gs⟩) := by
    simp [Settling.read, Settling.within, hgroups]
  rw [settle_signs_eq, settle_signs_eq, Settling.settle_append, hs, Settling.settle_cons, hin, Settling.settle_append,
    hw, hl, Settling.settle_cons, hout, hopen, hclose]
  simp [Settling.settle]

theorem balanced_settle_signs (l : List Symbol) : Balanced (settleSigns l) ↔ Balanced l := by
  have h := Settling.balance_settle Settling.start l
  rw [← settle_signs_eq] at h
  have hb : balance 0 (settleSigns l) =
    (balance 0 l).map fun _ => Settling.depth (Settling.start.after l).groups := h
  unfold Balanced
  rw [hb]
  cases hl : balance 0 l with
  | none => simp
  | some m =>
    have hm := Settling.length_groups (s := Settling.start) hl
    simp only [Option.map_some, Option.some.injEq, Settling.depth_eq_zero, ← hm, List.length_eq_zero_iff]

/-! ## Converting -/

namespace Conversion

/-- How many parentheses wait to be closed. -/
def openings (w : Stack Waiting) : Nat := w.countP (· = .opening)

@[simp] theorem openings_release (level : Nat) (code : List Instr) (w : Stack Waiting) :
    openings (release level code w).waiting = openings w := by
  induction w generalizing code with
  | nil => rfl
  | cons x w ih =>
    cases x with
    | opening => rfl
    | op o =>
      simp only [release]
      split
      · rfl
      · rw [ih]; simp [openings]

theorem leave_cases (code : List Instr) (w : Stack Waiting) :
    (∃ c, leave code w = .ok c ∧ openings w = openings c.waiting + 1) ∨
      (leave code w = .error .invalidExpression ∧ openings w = 0) := by
  induction w generalizing code with
  | nil => exact Or.inr ⟨rfl, rfl⟩
  | cons x w ih =>
    cases x with
    | opening => exact Or.inl ⟨⟨code, w⟩, rfl, by simp [openings]⟩
    | op o => simpa [leave, openings] using ih (.apply o :: code)

theorem finish_cases (code : List Instr) (w : Stack Waiting) :
    (∃ cs, finish code w = .ok cs ∧ openings w = 0) ∨
      (finish code w = .error .invalidExpression ∧ openings w ≠ 0) := by
  induction w generalizing code with
  | nil => exact Or.inl ⟨code.reverse, rfl, rfl⟩
  | cons x w ih =>
    cases x with
    | opening => exact Or.inr ⟨rfl, by simp [openings]⟩
    | op o => simpa [finish, openings] using ih (.apply o :: code)

/-- A conversion counts the parentheses that are open, and fails where one closes nothing. -/
theorem balance_read (c : Conversion) (l : List Symbol) :
    (∃ c', c.read l = .ok c' ∧ balance (openings c.waiting) l = some (openings c'.waiting)) ∨
      (c.read l = .error .invalidExpression ∧ balance (openings c.waiting) l = none) := by
  induction l generalizing c with
  | nil => exact Or.inl ⟨c, rfl, rfl⟩
  | cons x l ih =>
    rw [read_cons]
    cases x with
    | num v => exact ih ⟨.push v :: c.code, c.waiting⟩
    | op o =>
      have hw : openings (Stack.push (release o.precedence c.code c.waiting).waiting (.op o)) = openings c.waiting := by
        simpa [openings, Stack.push] using openings_release o.precedence c.code c.waiting
      have := ih ⟨(release o.precedence c.code c.waiting).code,
        Stack.push (release o.precedence c.code c.waiting).waiting (.op o)⟩
      rw [hw] at this
      exact this
    | opening =>
      have hw : openings (Stack.push c.waiting .opening) = openings c.waiting + 1 := by simp [openings, Stack.push]
      have := ih ⟨c.code, Stack.push c.waiting .opening⟩
      rw [hw] at this
      exact this
    | closing =>
      rcases leave_cases c.code c.waiting with ⟨c', hc, hw⟩ | ⟨hc, hw⟩
      · rw [show c.step .closing = .ok c' from hc, hw]
        exact ih c'
      · rw [show c.step .closing = .error .invalidExpression from hc, hw]
        exact Or.inr ⟨rfl, rfl⟩

end Conversion

/-- A formula converts if its parentheses match, and is refused otherwise. -/
theorem to_code_cases (l : List Symbol) :
    (∃ code, toCode l = .ok code ∧ Balanced l) ∨ (toCode l = .error .invalidExpression ∧ ¬Balanced l) := by
  rw [Conversion.to_code_eq]
  rcases Conversion.balance_read Conversion.start l with ⟨c, hc, hb⟩ | ⟨hc, hb⟩
  · rw [hc]
    rcases Conversion.finish_cases c.code c.waiting with ⟨cs, hf, hw⟩ | ⟨hf, hw⟩
    · exact Or.inl ⟨cs, hf, hb.trans (congrArg some hw)⟩
    · exact Or.inr ⟨hf, fun h => hw (Option.some.inj (hb.symm.trans h))⟩
  · rw [hc]
    exact Or.inr ⟨rfl, fun h => by cases hb.symm.trans h⟩

theorem balanced_of_to_code {l : List Symbol} {code : List Instr} (h : toCode l = .ok code) : Balanced l := by
  rcases to_code_cases l with ⟨-, -, hb⟩ | ⟨he, -⟩
  · exact hb
  · rw [h] at he; cases he

theorem balanced_of_value {limits : Limits} {l : List Symbol} {v : Int} (h : value limits l = .ok v) :
    Balanced l := by
  obtain ⟨code, hc, -⟩ := code_of_value limits h
  exact (balanced_settle_signs l).mp (balanced_of_to_code hc)

end Reckon.Formula
