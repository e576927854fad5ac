/-
  Reckon.Proofs.Formula.NormalForm — formulas that settling the signs leaves alone.

  A formula is settled if no two signs stand side by side in it, and a sign that has no
  operand on its left has none on its right either (`Settled`). Any list of symbols comes
  out settled, and those that are settled come out as they are, and no others: what is
  added for a negated group is read as binary when it is read again
  (`settle_signs_settled`).

  Whether a formula is settled can be checked from the left (`Tidy`): the place that the
  sign machine is in before a symbol decides whether the symbol may follow.
-/

import Reckon.Proofs.Formula.Settling

namespace Reckon.Formula

/-! ## The normal form -/

namespace Symbol

/-- Nothing to the left of the next symbol is an operand of it. -/
def wantsOperand : Symbol → Prop
  | .opening | .op _ => True
  | .num _ | .closing => False

/-- An operand starts with the symbol. -/
def startsOperand : Symbol → Prop
  | .num _ | .opening => True
  | .op _ | .closing => False

end Symbol

structure Settled (l : List Symbol) : Prop where
  /-- No sign follows another one. -/
  single : ∀ a b o p, l = a ++ .op o :: .op p :: b → ¬(o.isSign = true ∧ p.isSign = true)
  /-- A sign that is first, or follows an opening parenthesis or an operator, stands before
      neither a number nor a group. -/
  bare : ∀ a b o x, l = a ++ .op o :: x :: b → o.isSign = true → (∀ y ∈ a.getLast?, y.wantsOperand) →
    ¬x.startsOperand

/-! ## Checking from the left -/

namespace Place

/-- The place after a symbol. -/
def follow (p : Place) (x : Symbol) : Place := (Settling.read ⟨p, []⟩ x).2.place

/-- Whether a symbol may follow, the sign before it being written as it is. -/
def Admits : Place → Symbol → Prop
  | after, _ | before, _ => True
  | binary _, x => x.endsRun = true
  | unary _, x => x.endsRun = true ∧ ¬x.startsOperand

/-- A symbol that ends a run leads to one place, whatever was held back. -/
theorem follow_ends {x : Symbol} (hx : x.endsRun = true) (p q : Place) : p.follow x = q.follow x := by
  cases x with
  | op o => simp [follow, ends_run_op.mp hx]
  | num | opening | closing => rfl

theorem follow_sign {o : Operator} (ho : o.isSign = true) (p : Place) : p.follow (.op o) = p.sign o := by
  rw [follow, Settling.read_sign ho]

theorem follow_operator {o : Operator} (ho : ¬o.isSign = true) (p : Place) : p.follow (.op o) = before := by
  rw [follow, Settling.read_operator ho]

theorem ends_run_of_admits {p : Place} {o : Operator} {x : Symbol} (h : (p.sign o).Admits x) : x.endsRun = true := by
  cases p with
  | after | binary => exact h
  | before | unary => exact h.1

theorem admits_of_ends {x : Symbol} (hx : x.endsRun = true) (hs : ¬x.startsOperand) (p : Place) : p.Admits x := by
  cases p with
  | after | before => exact trivial
  | binary o => exact hx
  | unary o => exact ⟨hx, hs⟩

end Place

/-- Every symbol may stand where it does, the first one at the place given. -/
def Tidy : Place → List Symbol → Prop
  | _, [] => True
  | p, x :: l => p.Admits x ∧ Tidy (p.follow x) l

/-- The place after some symbols. -/
def placeAt (p : Place) (a : List Symbol) : Place := a.foldl Place.follow p

theorem tidy_append {p : Place} {a b : List Symbol} : Tidy p (a ++ b) ↔ Tidy p a ∧ Tidy (placeAt p a) b := by
  induction a generalizing p with
  | nil => simp [Tidy, placeAt]
  | cons x a ih => simp [Tidy, ih, and_assoc, placeAt]

theorem tidy_iff {p : Place} {l : List Symbol} :
    Tidy p l ↔ ∀ a x b, l = a ++ x :: b → (placeAt p a).Admits x := by
  constructor
  · intro h a x b hl
    rw [hl, tidy_append] at h
    exact h.2.1
  · induction l generalizing p with
    | nil => exact fun _ => trivial
    | cons x l ih =>
      intro h
      exact ⟨h [] x l rfl, ih fun a y b hl => h (x :: a) y b (congrArg (x :: ·) hl)⟩

@[simp] theorem place_at_concat (p : Place) (a : List Symbol) (x : Symbol) :
    placeAt p (a ++ [x]) = (placeAt p a).follow x := by
  simp [placeAt]

theorem place_at_ne_after {a : List Symbol} : placeAt .before a ≠ .after ↔ ∀ y ∈ a.getLast?, y.wantsOperand := by
  rcases a.eq_nil_or_concat with rfl | ⟨a, y, rfl⟩
  · simp [placeAt]
  · rw [List.concat_eq_append, place_at_concat, List.getLast?_concat]
    cases y with
    | num | opening | closing => simp [Place.follow, Settling.read, Symbol.wantsOperand]
    | op o =>
      by_cases ho : o.isSign = true
      · rw [Place.follow_sign ho]
        cases placeAt .before a <;> simp [Place.sign, Place.hold, Symbol.wantsOperand]
      · rw [Place.follow_operator ho]
        simp [Symbol.wantsOperand]

theorem tidy_of_settled {l : List Symbol} (h : Settled l) : Tidy .before l := by
  rw [tidy_iff]
  intro a x b hl
  -- the symbol on the left decides, and only a sign there excludes anything
  rcases a.eq_nil_or_concat with rfl | ⟨a, y, rfl⟩
  · exact trivial
  rw [List.concat_eq_append, place_at_concat]
  cases y with
  | num | opening | closing => exact trivial
  | op o =>
    by_cases ho : o.isSign = true
    · have hsplit : l = a ++ .op o :: x :: b := by simp [hl]
      have hx : x.endsRun = true := by
        cases x with
        | op p => exact ends_run_op.mpr fun hp => h.single a b o p hsplit ⟨ho, hp⟩
        | num | opening | closing => rfl
      rw [Place.follow_sign ho]
      have hbare := h.bare a b o x hsplit ho
      rw [← place_at_ne_after] at hbare
      cases hp : placeAt .before a with
      | after => exact hx
      | binary q => exact hx
      | before => exact ⟨hx, hbare (by simp [hp])⟩
      | unary q => exact ⟨hx, hbare (by simp [hp])⟩
    · rw [Place.follow_operator ho]
      exact trivial

theorem settled_of_tidy {l : List Symbol} (h : Tidy .before l) : Settled l := by
  rw [tidy_iff] at h
  -- what follows a sign is admitted at the place after the sign
  have hnext : ∀ a o x b, l = a ++ .op o :: x :: b → o.isSign = true → ((placeAt .before a).sign o).Admits x := by
    intro a o x b hl ho
    have := h (a ++ [.op o]) x b (by simp [hl])
    rwa [place_at_concat, Place.follow_sign ho] at this
  refine ⟨?_, ?_⟩
  · intro a b o p hl ⟨ho, hp⟩
    have hends := Place.ends_run_of_admits (hnext a o _ b hl ho)
    exact ends_run_op.mp hends hp
  · intro a b o x hl ho hwants
    have hsign := h a (.op o) (x :: b) hl
    have hx := hnext a o x b hl ho
    have hafter := place_at_ne_after.mpr hwants
    cases hp : placeAt .before a with
    | after => exact absurd hp hafter
    | before =>
      rw [hp] at hx
      exact hx.2
    | binary q =>
      rw [hp] at hsign
      exact absurd ho (ends_run_op.mp hsign)
    | unary q =>
      rw [hp] at hsign
      exact absurd ho (ends_run_op.mp hsign.1)

/-! ## What comes out as it is -/

namespace Settling

theorem settle_tidy {p : Place} {gs : List Bool} {l : List Symbol} (h : Tidy p l) (hgs : ∀ g ∈ gs, g = false) :
    settle ⟨p, gs⟩ l = p.held ++ l := by
  induction l generalizing p gs with
  | nil => simp [settle, writes, after]
  | cons x l ih =>
    obtain ⟨hx, hl⟩ := h
    rw [settle_cons]
    cases x with
    | num v =>
      have hw : p.number v = p.held ++ [.num v] := by
        cases p with
        | unary o => exact absurd trivial hx.2
        | after | before | binary o => rfl
      have hrest : settle ⟨.after, gs⟩ l = l := ih hl hgs
      simp [read, hw, hrest]
    | op o =>
      by_cases ho : o.isSign = true
      · have hw : (p.sign o).held = p.held ++ [.op o] := by
          cases p with
          | after | before => simp [Place.sign, Place.hold, Place.held, sign_of_minus ho]
          | binary q => exact absurd ho (ends_run_op.mp hx)
          | unary q => exact absurd ho (ends_run_op.mp hx.1)
        rw [Place.follow_sign ho] at hl
        rw [read_sign ho, ih hl hgs, hw]
        simp
      · rw [Place.follow_operator ho] at hl
        rw [read_operator ho, ih hl hgs]
        simp [Place.held]
    | opening =>
      have hw : p.opened = p.held ++ [.opening] ∧ p.negates = false := by
        cases p with
        | unary o => exact absurd trivial hx.2
        | after | before | binary o => exact ⟨rfl, rfl⟩
      have hrest : settle ⟨.before, false :: gs⟩ l = l := ih hl (by simpa using hgs)
      simp [read, hw, hrest]
    | closing =>
      have hw : closed gs = [.closing] := by
        rcases gs with _ | ⟨g, gs⟩
        · rfl
        · rw [hgs g List.mem_cons_self]
          rfl
      have hrest : settle ⟨.after, gs.tail⟩ l = l := ih hl fun g hg => hgs g (List.mem_of_mem_tail hg)
      simp [read, hw, hrest]

end Settling

/-! ## What comes out is settled -/

namespace Place

/-- What is held back is written where it may stand, before a symbol that may follow it. -/
theorem tidy_held {p : Place} {x : Symbol} (hx : x.endsRun = true) {b : List Symbol} (hb : Tidy p (x :: b)) :
    Tidy p.base (p.held ++ x :: b) ∧ placeAt p.base (p.held ++ x :: b) = placeAt p (x :: b) := by
  cases p with
  | after | before => exact ⟨hb, rfl⟩
  | binary m | unary m =>
    have hfollow := follow_sign (sign_of_is_sign m)
    obtain ⟨hadmits, hrest⟩ := hb
    refine ⟨⟨trivial, ?_⟩, ?_⟩
    · rw [hfollow]
      exact ⟨hadmits, by rw [follow_ends hx _ _]; exact hrest⟩
    · show placeAt (Place.follow (Place.follow _ (.op (signOf m))) x) b = placeAt (Place.follow _ x) b
      rw [follow_ends hx]

end Place

namespace Settling

theorem tidy_read (p : Place) {x : Symbol} (hx : x.endsRun = true) (gs : List Bool) :
    Tidy p.base (read ⟨p, gs⟩ x).1 ∧ placeAt p.base (read ⟨p, gs⟩ x).1 = (read ⟨p, gs⟩ x).2.place := by
  cases x with
  | num v =>
    cases p with
    | after | before | unary m => exact ⟨⟨trivial, trivial⟩, rfl⟩
    | binary m => exact Place.tidy_held rfl (b := []) ⟨rfl, trivial⟩
  | op o =>
    have ho := ends_run_op.mp hx
    have hlast : placeAt p [.op o] = .before := Place.follow_operator ho p
    rw [read_operator ho, ← hlast]
    exact Place.tidy_held hx (b := []) ⟨Place.admits_of_ends hx id p, trivial⟩
  | opening =>
    cases p with
    | unary m =>
      by_cases h : signOf m = .sub
      · simp only [read, Place.opened, if_pos h]
        exact ⟨⟨trivial, trivial, trivial, rfl, trivial⟩, rfl⟩
      · simp only [read, Place.opened, if_neg h]
        exact ⟨⟨trivial, trivial⟩, rfl⟩
    | after | before => exact ⟨⟨trivial, trivial⟩, rfl⟩
    | binary m => exact Place.tidy_held rfl (b := []) ⟨rfl, trivial⟩
  | closing =>
    have hadmits : p.Admits .closing := Place.admits_of_ends rfl id p
    rcases gs with _ | ⟨_ | _, gs⟩
    · exact Place.tidy_held rfl (b := []) ⟨hadmits, trivial⟩
    · exact Place.tidy_held rfl (b := []) ⟨hadmits, trivial⟩
    · exact Place.tidy_held rfl (b := [.closing]) ⟨hadmits, trivial, trivial⟩

theorem tidy_settle (s : Settling) (l : List Symbol) : Tidy s.place.base (s.settle l) := by
  induction l generalizing s with
  | nil =>
    obtain ⟨p, gs⟩ := s
    cases p with
    | after | before => trivial
    | binary m | unary m => exact ⟨trivial, trivial⟩
  | cons x l ih =>
    rw [settle_cons]
    by_cases hx : x.endsRun = true
    · obtain ⟨htidy, hplace⟩ := tidy_read s.place hx s.groups
      have hbase : (s.read x).2.place.base = (s.read x).2.place := by
        cases x with
        | op o =>
          rw [read_operator (ends_run_op.mp hx)]
          rfl
        | num | opening | closing => rfl
      have hrest := ih (s.read x).2
      rw [hbase] at hrest
      exact tidy_append.mpr ⟨htidy, hplace ▸ hrest⟩
    · obtain ⟨o, rfl, ho⟩ := sign_of_not_ends hx
      have hrest := ih ⟨s.place.sign o, s.groups⟩
      rw [Place.base_sign] at hrest
      rw [read_sign ho]
      exact hrest

end Settling

theorem settled_settle_signs (l : List Symbol) : Settled (settleSigns l) := by
  rw [settle_signs_eq]
  exact settled_of_tidy (Settling.tidy_settle Settling.start l)

theorem settle_signs_of_settled {l : List Symbol} (h : Settled l) : settleSigns l = l := by
  rw [settle_signs_eq]
  exact Settling.settle_tidy (tidy_of_settled h) (by simp)

/-- Whatever the symbols, they come out settled and come out the same when they are settled
    again; and exactly those that are settled come out as they went in. -/
theorem settle_signs_settled (l : List Symbol) :
    Settled (settleSigns l) ∧ settleSigns (settleSigns l) = settleSigns l ∧ (settleSigns l = l ↔ Settled l) := by
  refine ⟨settled_settle_signs l, settle_signs_of_settled (settled_settle_signs l), ?_, settle_signs_of_settled⟩
  intro h
  rw [← h]
  exact settled_settle_signs l

/-- In `* -(1 + -) -` the group is negated, and the signs at its end and after it, with
    nothing to apply to, are kept. -/
example : settleSigns [.op .mul, .op .sub, .opening, .num 1, .op .add, .op .sub, .closing, .op .sub] =
    [.op .mul, .opening, .num 0, .op .sub, .opening, .num 1, .op .sub, .closing, .closing, .op .sub] := by cbv

end Reckon.Formula
