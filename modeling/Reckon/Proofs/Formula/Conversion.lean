/-
  Reckon.Proofs.Formula.Conversion — converting a part of a formula.

  What is on the stack below an opening parenthesis, and the code made before, play no
  part in what a conversion does above them:
  - `read_under`: code made before stays in front of the code made later;
  - `read_above`: what waits below an opening parenthesis stays there, as long as the
    conversion would have gone well without it;
  - `read_group`: so a group that converts on its own adds its code and nothing else;
  - `to_code_context`: what stands around a group makes code before it and code after it,
    or a fault, whatever the group is.
-/

import Reckon.Formula.Code
import Reckon.Proofs.Except

namespace Reckon.Formula

namespace Conversion

/-- The conversion after some symbols. -/
def read (c : Conversion) (l : List Symbol) : Except Fault Conversion := l.foldlM step c

theorem read_cons (c : Conversion) (x : Symbol) (l : List Symbol) :
    c.read (x :: l) = (c.step x).bind fun c => c.read l := rfl

theorem read_append (c : Conversion) (a b : List Symbol) :
    c.read (a ++ b) = (c.read a).bind fun c => c.read b := by
  simp only [read, List.foldlM_append]
  rfl

theorem to_code_eq (l : List Symbol) : toCode l = (start.read l).bind fun c => finish c.code c.waiting := rfl

/-! ## Code made before -/

/-- A conversion with code made before it. -/
def under (base : List Instr) (c : Conversion) : Conversion := { c with code := c.code ++ base }

theorem release_under (level : Nat) (code base : List Instr) (w : Stack Waiting) :
    release level (code ++ base) w = (release level code w).under base := by
  induction w generalizing code with
  | nil => rfl
  | cons x w ih =>
    cases x with
    | opening => rfl
    | op o =>
      simp only [release]
      split
      · rfl
      · exact ih (.apply o :: code)

theorem leave_under (code base : List Instr) (w : Stack Waiting) :
    leave (code ++ base) w = (leave code w).map (under base) := by
  induction w generalizing code with
  | nil => rfl
  | cons x w ih =>
    cases x with
    | opening => rfl
    | op o => exact ih (.apply o :: code)

theorem finish_under (code base : List Instr) (w : Stack Waiting) :
    finish (code ++ base) w = (finish code w).map (base.reverse ++ ·) := by
  induction w generalizing code with
  | nil => simp [finish, Except.map]
  | cons x w ih =>
    cases x with
    | opening => rfl
    | op o => exact ih (.apply o :: code)

theorem step_under (base : List Instr) (c : Conversion) (x : Symbol) :
    (c.under base).step x = (c.step x).map (under base) := by
  cases x with
  | num v => rfl
  | op o => simp only [step, under, release_under]; rfl
  | opening => rfl
  | closing => exact leave_under c.code base c.waiting

theorem read_under (base : List Instr) (c : Conversion) (l : List Symbol) :
    (c.under base).read l = (c.read l).map (under base) := by
  induction l generalizing c with
  | nil => rfl
  | cons x l ih =>
    rw [read_cons, read_cons, step_under]
    cases c.step x with
    | error f => rfl
    | ok c' => exact ih c'

/-! ## What waits below an opening parenthesis -/

/-- A conversion with an opening parenthesis and what waits below it. -/
def above (v : Stack Waiting) (c : Conversion) : Conversion := { c with waiting := c.waiting ++ .opening :: v }

theorem release_above (level : Nat) (code : List Instr) (w v : Stack Waiting) :
    release level code (w ++ .opening :: v) = (release level code w).above v := by
  induction w generalizing code with
  | nil => rfl
  | cons x w ih =>
    cases x with
    | opening => rfl
    | op o =>
      simp only [release, List.cons_append]
      split
      · rfl
      · exact ih (.apply o :: code)

theorem leave_above {code : List Instr} {w : Stack Waiting} {c : Conversion} (h : leave code w = .ok c)
    (v : Stack Waiting) : leave code (w ++ .opening :: v) = .ok (c.above v) := by
  induction w generalizing code with
  | nil => cases h
  | cons x w ih =>
    cases x with
    | opening => cases h; rfl
    | op o => exact ih h

/-- The end of a group does what the end of the formula does to the group alone. -/
theorem leave_of_finish {code : List Instr} {w : Stack Waiting} {cs : List Instr} (h : finish code w = .ok cs)
    (v : Stack Waiting) : leave code (w ++ .opening :: v) = .ok ⟨cs.reverse, v⟩ := by
  induction w generalizing code with
  | nil => cases h; simp [leave]
  | cons x w ih =>
    cases x with
    | opening => cases h
    | op o => exact ih h

theorem step_above {c c' : Conversion} {x : Symbol} (h : c.step x = .ok c') (v : Stack Waiting) :
    (c.above v).step x = .ok (c'.above v) := by
  cases x with
  | num n => cases h; rfl
  | op o => cases h; simp only [step, above, release_above]; rfl
  | opening => cases h; rfl
  | closing => exact leave_above h v

theorem read_above {c c' : Conversion} {l : List Symbol} (h : c.read l = .ok c') (v : Stack Waiting) :
    (c.above v).read l = .ok (c'.above v) := by
  induction l generalizing c with
  | nil => cases h; rfl
  | cons x l ih =>
    rw [read_cons] at h ⊢
    obtain ⟨d, hx, hr⟩ := bind_eq_ok h
    rw [step_above hx]
    exact ih hr

/-! ## Groups -/

theorem read_group {g : List Symbol} {code : List Instr} (h : toCode g = .ok code) (c : Conversion) :
    c.read (.opening :: (g ++ [.closing])) = .ok (under c.code ⟨code.reverse, c.waiting⟩) := by
  rw [to_code_eq] at h
  obtain ⟨d, hg, hf⟩ := bind_eq_ok h
  have hopen : c.step .opening = .ok (under c.code (start.above c.waiting)) := rfl
  have hclose : (d.above c.waiting).step .closing = .ok ⟨code.reverse, c.waiting⟩ := leave_of_finish hf c.waiting
  calc c.read (.opening :: (g ++ [.closing]))
      = (under c.code (start.above c.waiting)).read (g ++ [.closing]) := by rw [read_cons, hopen]; rfl
    _ = ((start.above c.waiting).read (g ++ [.closing])).map (under c.code) := read_under _ _ _
    _ = .ok (under c.code ⟨code.reverse, c.waiting⟩) := by
      rw [read_append, read_above hg c.waiting]
      show (((d.above c.waiting).step .closing).bind fun c => c.read []).map _ = _
      rw [hclose]
      rfl

/-- What stands around a group makes the same code before and after it, or the same fault,
    whatever the group is. -/
theorem to_code_context (a b : List Symbol) :
    ∃ context : Except Fault (List Instr × List Instr), ∀ g code, toCode g = .ok code →
      toCode (a ++ .opening :: (g ++ .closing :: b)) = context.map fun (before, after) => before ++ code ++ after := by
  cases ha : start.read a with
  | error f =>
    refine ⟨.error f, ?_⟩
    intro g code _
    rw [to_code_eq, read_append, ha]
    rfl
  | ok c =>
    -- What follows is converted from what waits before the group, with no code yet.
    refine ⟨(((⟨[], c.waiting⟩ : Conversion).read b).bind fun d => finish d.code d.waiting).map (c.code.reverse, ·),
      ?_⟩
    intro g code hg
    have hsplit : .opening :: (g ++ .closing :: b) = (.opening :: (g ++ [.closing])) ++ b := by simp
    have hbase : under c.code ⟨code.reverse, c.waiting⟩ = under (code.reverse ++ c.code) ⟨[], c.waiting⟩ := rfl
    rw [to_code_eq, read_append, ha, hsplit]
    show ((c.read ((.opening :: (g ++ [.closing])) ++ b)).bind _) = _
    rw [read_append, read_group hg, hbase]
    show (((under (code.reverse ++ c.code) ⟨[], c.waiting⟩).read b).bind _) = _
    rw [read_under]
    cases (⟨[], c.waiting⟩ : Conversion).read b with
    | error f => rfl
    | ok d =>
      show finish (d.code ++ (code.reverse ++ c.code)) d.waiting = _
      rw [finish_under]
      cases hd : finish d.code d.waiting <;> simp [Except.bind, Except.map, hd]

end Conversion

end Reckon.Formula
