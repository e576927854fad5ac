/-
  Reckon.Proofs.Formula.Depth — the counter of parentheses while signs are settled.

  A reading counts the parentheses that are open in what it wrote (`depth`) and keeps the
  depths at which negated groups end (`pending`). Of every reading on the way, for any
  formula (`reading_depths`):
  (1) the depths pending grow from the outermost to the innermost, and none is below 2;
  (2) none is above the counter, but for the one that was added in the last step: `(0 -`
      was written and the group itself, which opens one deeper, comes next (`Wrapped`);
  (3) until a parenthesis closes nothing, the counter is the number of parentheses that
      are open in what was written;
  (4) as many parentheses were added to open a group as were added to close one, or are
      pending.
  So the counter is never zero where a group is closed on top of the one that is read, and
  after a formula whose parentheses match nothing is open and nothing pending.

  A reading is always inside some groups of the formula, negated or not (`Inside`), and
  these tell its counter and the depths pending; `turn_of_next` says all that one step
  can do.
-/

import Reckon.Proofs.Formula.Matching

namespace Reckon.Formula

open Settling (depth ends)

/-! ## Depths of groups -/

theorem two_le_ends {gs : List Bool} : ∀ d ∈ ends gs, 2 ≤ d := by
  induction gs with
  | nil => simp [ends]
  | cons g gs ih =>
    cases g with
    | true => simpa [ends] using ih
    | false => exact ih

theorem ends_descending (gs : List Bool) : (ends gs).Pairwise (· > ·) := by
  induction gs with
  | nil => exact .nil
  | cons g gs ih =>
    cases g with
    | true =>
      refine List.pairwise_cons.mpr ⟨?_, ih⟩
      intro d hd
      have := Settling.ends_le gs d hd
      omega
    | false => exact ih

/-! ## Counting parentheses -/

/-- Numbers and operators only. -/
def Unparenthesised (l : List Symbol) : Prop := l.count .opening = 0 ∧ l.count .closing = 0

theorem covered_of_append {a b : List Symbol} (h : Covered (a ++ b)) : Covered a :=
  fun p hp => h p (hp.trans (List.prefix_append a b))

theorem count_of_covered {l : List Symbol} (h : Covered l) : l.count .closing ≤ l.count .opening :=
  h l (List.prefix_refl l)

/-! ## Steps -/

/-- What the step from `r` to the last argument reads and does. -/
inductive Turn (r : Reading) : List Symbol → Reading → Prop
  /-- Numbers and operators are read, and such are written. -/
  | plain {x : Symbol} {taken w rest : List Symbol} : Unparenthesised (x :: taken) → Unparenthesised w →
      r.rest = x :: (taken ++ rest) → Turn r (x :: taken) { r with written := w ++ r.written, rest := rest }
  /-- A minus is read before a group to be negated. -/
  | wrap {rest : List Symbol} : r.rest = .op .sub :: .opening :: rest →
      Turn r [.op .sub] ⟨.op .sub :: .num 0 :: .opening :: r.written, r.depth + 1, (r.depth + 2) :: r.pending,
        .opening :: rest⟩
  | opening {rest : List Symbol} : r.rest = .opening :: rest →
      Turn r [.opening] { r with written := .opening :: r.written, depth := r.depth + 1, rest := rest }
  | closing {rest : List Symbol} : r.rest = .closing :: rest → Turn r [.closing] (r.close rest)

theorem turn_apply_sign {r : Reading} {o : Operator} {rest : List Symbol} (h : r.rest = .op o :: rest) :
    ∃ taken, Turn r taken (r.applySign o rest) := by
  have keep : ∃ taken, Turn r taken { r with written := .op o :: r.written, rest := rest } :=
    ⟨[.op o], .plain (w := [.op o]) ⟨rfl, rfl⟩ ⟨rfl, rfl⟩ h⟩
  cases rest with
  | nil => exact keep
  | cons x rest =>
    cases x with
    | num v =>
      exact ⟨[.op o, .num v], .plain (w := [.num (if o = .sub then -v else v)]) ⟨rfl, rfl⟩ ⟨rfl, rfl⟩ h⟩
    | opening =>
      by_cases ho : o = .sub
      · subst ho
        exact ⟨_, .wrap h⟩
      · rw [Reading.applySign, if_neg ho]
        exact ⟨[.op o], .plain (w := []) ⟨rfl, rfl⟩ ⟨rfl, rfl⟩ h⟩
    | op p => exact keep
    | closing => exact keep

theorem turn_of_next {r r' : Reading} (h : r.next? = some r') : ∃ taken, Turn r taken r' := by
  unfold Reading.next? at h
  split at h
  · cases h
  · rename_i o rest hr
    split at h
    · cases h
      exact turn_apply_sign hr
    · cases h
      exact ⟨[.op o], .plain (w := [.op o]) ⟨rfl, rfl⟩ ⟨rfl, rfl⟩ hr⟩
  · rename_i rest hr
    cases h
    exact ⟨_, .opening hr⟩
  · rename_i rest hr
    cases h
    exact ⟨_, .closing hr⟩
  · rename_i v rest hr
    cases h
    exact ⟨[.num v], .plain (w := [.num v]) ⟨rfl, rfl⟩ ⟨rfl, rfl⟩ hr⟩

theorem rest_of_turn {r r' : Reading} {taken : List Symbol} (h : Turn r taken r') : r.rest = taken ++ r'.rest := by
  cases h with
  | plain _ _ hr => exact hr
  | wrap hr => exact hr
  | opening hr => exact hr
  | closing hr =>
    rw [hr, Reading.close]
    split <;> rfl

/-! ## The groups that a reading is inside -/

/-- The groups that are open, the innermost first, and whether each is negated. One that is
    to be negated is not yet open when `(0 -` was written for it. -/
inductive Inside : List Bool → Reading → Prop
  | groups (w : List Symbol) (gs : List Bool) (rest : List Symbol) : Inside gs (readingAt w gs rest)
  | wrapped (w : List Symbol) (gs : List Bool) (rest : List Symbol) :
      Inside gs ⟨.op .sub :: .num 0 :: .opening :: w, depth gs + 1, (depth gs + 2) :: ends gs, .opening :: rest⟩

/-- The counts of a reading that has read some symbols, inside some groups. -/
structure Tracked (read : List Symbol) (r : Reading) (gs : List Bool) : Prop where
  inside : Inside gs r
  depth : Covered read → gs.length + read.count .closing = read.count .opening ∧
    r.written.count .opening = r.written.count .closing + r.depth
  added : ∃ opened closed, r.written.count .opening = read.count .opening + opened ∧
    r.written.count .closing = read.count .closing + closed ∧ opened = closed + r.pending.length

theorem tracked_start (l : List Symbol) : Tracked [] (Reading.start (foldRuns l)) [] :=
  ⟨.groups [] [] (foldRuns l), fun _ => ⟨rfl, rfl⟩, 0, 0, rfl, rfl, rfl⟩

/-- Unless a parenthesis comes next that opens a group, the groups tell all of a reading. -/
theorem reading_of_inside {gs : List Bool} {r : Reading} (h : Inside gs r) (hr : r.rest.head? ≠ some .opening) :
    r = readingAt r.written gs r.rest := by
  cases h with
  | groups w gs rest => rfl
  | wrapped w gs rest => exact absurd rfl hr

theorem not_opening_of {r : Reading} {x : Symbol} {taken rest : List Symbol} (h : Unparenthesised (x :: taken))
    (hr : r.rest = x :: rest) : r.rest.head? ≠ some .opening := by
  intro he
  rw [hr] at he
  cases he
  exact absurd h.1 (by simp)

theorem tracked_plain {read taken w rest : List Symbol} {x : Symbol} {r : Reading} {gs : List Bool}
    (h : Tracked read r gs) (ht : Unparenthesised (x :: taken)) (hw : Unparenthesised w)
    (hr : r.rest = x :: (taken ++ rest)) :
    Tracked (read ++ x :: taken) { r with written := w ++ r.written, rest := rest } gs := by
  have hread : (read ++ x :: taken).count .opening = read.count .opening ∧
      (read ++ x :: taken).count .closing = read.count .closing := by
    rw [List.count_append, List.count_append, ht.1, ht.2]
    exact ⟨rfl, rfl⟩
  have hwritten : (w ++ r.written).count .opening = r.written.count .opening ∧
      (w ++ r.written).count .closing = r.written.count .closing := by
    rw [List.count_append, List.count_append, hw.1, hw.2, Nat.zero_add, Nat.zero_add]
    exact ⟨rfl, rfl⟩
  refine ⟨?_, ?_, ?_⟩
  · rw [reading_of_inside h.inside (not_opening_of ht hr)]
    exact .groups _ gs rest
  · intro hc
    simp only [hread, hwritten]
    exact h.depth (covered_of_append hc)
  · simp only [hread, hwritten]
    exact h.added

theorem tracked_wrap {read rest : List Symbol} {r : Reading} {gs : List Bool} (h : Tracked read r gs)
    (hr : r.rest = .op .sub :: .opening :: rest) :
    Tracked (read ++ [.op .sub]) ⟨.op .sub :: .num 0 :: .opening :: r.written, r.depth + 1, (r.depth + 2) :: r.pending,
      .opening :: rest⟩ gs := by
  obtain ⟨opened, closed, ho, hc, hp⟩ := h.added
  refine ⟨?_, ?_, opened + 1, closed, ?_, ?_, ?_⟩
  · rw [reading_of_inside h.inside (by simp [hr])]
    exact .wrapped r.written gs rest
  · intro hcov
    have := h.depth (covered_of_append hcov)
    simp
    omega
  · simp
    omega
  · simpa using hc
  · simp
    omega

theorem tracked_opening {read rest : List Symbol} {r : Reading} {gs : List Bool} (h : Tracked read r gs)
    (hr : r.rest = .opening :: rest) :
    ∃ g, Tracked (read ++ [.opening]) { r with written := .opening :: r.written, depth := r.depth + 1, rest := rest }
      (g :: gs) := by
  obtain ⟨opened, closed, ho, hc, hp⟩ := h.added
  have hin : ∃ g, Inside (g :: gs) { r with written := .opening :: r.written, depth := r.depth + 1, rest := rest } := by
    cases h.inside with
    | groups w gs rest' => exact ⟨false, .groups (.opening :: w) (false :: gs) rest⟩
    | wrapped w gs rest' => exact ⟨true, .groups _ (true :: gs) rest⟩
  obtain ⟨g, hin⟩ := hin
  refine ⟨g, hin, ?_, opened, closed, ?_, ?_, hp⟩
  · intro hcov
    have := h.depth (covered_of_append hcov)
    simp
    omega
  · simp
    omega
  · simpa using hc

/-- Where the innermost group is closed, one parenthesis is written for it, and one more for
    each depth that is no longer pending. -/
theorem count_closed (gs : List Bool) : (Settling.closed gs).count .opening = 0 ∧
    ∃ ended, (Settling.closed gs).count .closing = 1 + ended ∧ (ends gs).length = ended + (ends gs.tail).length := by
  rcases gs with _ | ⟨_ | _, gs⟩
  · exact ⟨rfl, 0, rfl, rfl⟩
  · exact ⟨rfl, 0, rfl, (Nat.zero_add _).symm⟩
  · exact ⟨rfl, 1, rfl, Nat.add_comm _ 1⟩

theorem depth_tail {gs : List Bool} (h : gs ≠ []) :
    depth gs = depth gs.tail + (Settling.closed gs).count .closing := by
  rcases gs with _ | ⟨_ | _, gs⟩
  · exact absurd rfl h
  · rfl
  · rfl

theorem tracked_closing {read rest : List Symbol} {r : Reading} {gs : List Bool} (h : Tracked read r gs)
    (hr : r.rest = .closing :: rest) : Tracked (read ++ [.closing]) (r.close rest) gs.tail := by
  obtain ⟨opened, closed, ho, hc, hp⟩ := h.added
  have hreading := reading_of_inside h.inside (by simp [hr])
  have hdepth : r.depth = depth gs := by rw [hreading]; rfl
  have hpending : r.pending = ends gs := by rw [hreading]; rfl
  obtain ⟨hopening, ended, hclosing, hended⟩ := count_closed gs
  rw [hpending, hended] at hp
  rw [hreading, hr, close_eq]
  refine ⟨.groups _ gs.tail rest, ?_, opened, closed + ended, ?_, ?_, ?_⟩
  · intro hcov
    obtain ⟨hgs, hcount⟩ := h.depth (covered_of_append hcov)
    have hlt := count_of_covered hcov
    simp only [List.count_append, List.count_singleton_self] at hlt
    have hne : gs ≠ [] := by
      rintro rfl
      simp at hgs hlt
      omega
    have := depth_tail hne
    have := List.length_pos_of_ne_nil hne
    simp [readingAt]
    omega
  · simp [readingAt]
    omega
  · simp [readingAt]
    omega
  · simp only [readingAt]
    omega

theorem tracked_next {read : List Symbol} {r r' : Reading} {gs : List Bool} (h : Tracked read r gs)
    (hn : r.next? = some r') : ∃ taken gs', r.rest = taken ++ r'.rest ∧ Tracked (read ++ taken) r' gs' := by
  obtain ⟨taken, ht⟩ := turn_of_next hn
  refine ⟨taken, ?_⟩
  have hrest := rest_of_turn ht
  cases ht with
  | plain ht hw hr => exact ⟨gs, hrest, tracked_plain h ht hw hr⟩
  | wrap hr => exact ⟨gs, hrest, tracked_wrap h hr⟩
  | opening hr =>
    obtain ⟨g, hg⟩ := tracked_opening h hr
    exact ⟨g :: gs, hrest, hg⟩
  | closing hr => exact ⟨gs.tail, hrest, tracked_closing h hr⟩

/-! ## Runs -/

/-- The readings of a formula, from the first on. -/
inductive Reached (l : List Symbol) : Reading → Prop
  | start : Reached l (.start (foldRuns l))
  | next {r r' : Reading} : Reached l r → r.next? = some r' → Reached l r'

theorem tracked_reached {l : List Symbol} {r : Reading} (h : Reached l r) :
    ∃ read gs, foldRuns l = read ++ r.rest ∧ Tracked read r gs := by
  induction h with
  | start => exact ⟨[], [], rfl, tracked_start l⟩
  | next _ hn ih =>
    obtain ⟨read, gs, hl, ht⟩ := ih
    obtain ⟨taken, gs', hrest, ht'⟩ := tracked_next ht hn
    exact ⟨read ++ taken, gs', by rw [hl, hrest, List.append_assoc], ht'⟩

theorem rest_of_no_next {r : Reading} (h : r.next? = none) : r.rest = [] := by
  unfold Reading.next? at h
  split at h
  · assumption
  · split at h <;> cases h
  · cases h
  · cases h
  · cases h

theorem reached_finish {l : List Symbol} {r : Reading} (h : Reached l r) : Reached l r.finish ∧ r.finish.rest = [] := by
  fun_induction Reading.finish r with
  | case1 r hn => exact ⟨h, rest_of_no_next hn⟩
  | case2 r r' hn ih => exact ih (.next h hn)

/-! ## The formula that is read -/

/-- The first symbol of what is folded after a run comes from that run, from signs that go
    on with it, or from what stands first. -/
theorem fold_after_eq_cons {run : Option Int32} {l t : List Symbol} {x : Symbol} (h : foldAfter run l = x :: t) :
    ∃ a b, l = a ++ b ∧ foldRuns b = t ∧ a.filter Symbol.endsRun = [x].filter Symbol.endsRun := by
  induction l generalizing run with
  | nil =>
    cases run with
    | none => cases h
    | some m =>
      cases h
      exact ⟨[], [], rfl, rfl, by simp [Symbol.endsRun]⟩
  | cons y l ih =>
    by_cases hy : y.endsRun = true
    · rw [fold_after_ends hy] at h
      cases run with
      | none =>
        cases h
        exact ⟨[x], l, rfl, rfl, rfl⟩
      | some m =>
        -- the run before ends here, and its sign is all that is taken
        cases h
        refine ⟨[], y :: l, rfl, fold_after_ends hy none l, by simp [Symbol.endsRun]⟩
    · obtain ⟨o, rfl, ho⟩ := sign_of_not_ends hy
      rw [fold_after_sign ho] at h
      obtain ⟨a, b, rfl, hb, ha⟩ := ih h
      exact ⟨.op o :: a, b, rfl, hb, by rw [List.filter_cons_of_neg hy, ha]⟩

/-- What is read of a formula with its runs of signs folded was, but for its signs, read of
    the formula. -/
theorem fold_runs_eq_append {l u v : List Symbol} (h : foldRuns l = u ++ v) :
    ∃ a b, l = a ++ b ∧ foldRuns b = v ∧ a.filter Symbol.endsRun = u.filter Symbol.endsRun := by
  induction u generalizing l with
  | nil => exact ⟨[], l, rfl, h, rfl⟩
  | cons x u ih =>
    obtain ⟨a, b, rfl, hb, ha⟩ := fold_after_eq_cons h
    obtain ⟨a', b', rfl, hb', ha'⟩ := ih hb
    refine ⟨a ++ a', b', (List.append_assoc a a' b').symm, hb', ?_⟩
    rw [List.filter_append, ha, ha', ← List.filter_append, List.singleton_append]

@[simp] theorem balance_filter (n : Nat) (l : List Symbol) : balance n (l.filter Symbol.endsRun) = balance n l := by
  induction l generalizing n with
  | nil => rfl
  | cons x l ih =>
    cases x with
    | num v => exact ih n
    | op o => by_cases ho : o.isSign = true <;> simpa [Symbol.endsRun, ho, balance] using ih n
    | opening => exact ih (n + 1)
    | closing =>
      cases n with
      | zero => rfl
      | succ n => exact ih n

theorem covered_iff {l : List Symbol} : Covered l ↔ ∃ m, balance 0 l = some m := by
  simp only [balance_eq_some_iff, Nat.zero_add]
  constructor
  · intro h
    have := count_of_covered h
    exact ⟨l.count .opening - l.count .closing, h, by omega⟩
  · intro ⟨m, h, _⟩
    exact h

/-- Two formulas with the same symbols but for their signs have the same parentheses. -/
theorem parentheses_of_filter {a b : List Symbol} (h : a.filter Symbol.endsRun = b.filter Symbol.endsRun) :
    (Covered a ↔ Covered b) ∧ a.count .opening = b.count .opening ∧ a.count .closing = b.count .closing := by
  have count : ∀ {x : Symbol}, x.endsRun = true → a.count x = b.count x := by
    intro x hx
    rw [← List.count_filter hx, h, List.count_filter hx]
  refine ⟨?_, count rfl, count rfl⟩
  rw [covered_iff, covered_iff, ← balance_filter 0 a, h, balance_filter]

theorem fold_after_some_ne_nil (m : Int32) (l : List Symbol) : foldAfter (some m) l ≠ [] := by
  induction l generalizing m with
  | nil => exact List.cons_ne_nil _ _
  | cons x l ih =>
    by_cases hx : x.endsRun = true
    · rw [fold_after_ends hx]
      exact List.cons_ne_nil _ _
    · obtain ⟨o, rfl, ho⟩ := sign_of_not_ends hx
      rw [fold_after_sign ho]
      exact ih _

theorem fold_runs_eq_nil {l : List Symbol} (h : foldRuns l = []) : l = [] := by
  cases l with
  | nil => rfl
  | cons x l =>
    rw [foldRuns] at h
    by_cases hx : x.endsRun = true
    · rw [fold_after_ends hx] at h
      cases h
    · obtain ⟨o, rfl, ho⟩ := sign_of_not_ends hx
      rw [fold_after_sign ho] at h
      exact absurd h (fold_after_some_ne_nil _ l)

/-! ## Every reading -/

/-- The step from `before` wrote `(0 -`, and the group that is to be negated comes next. -/
structure Wrapped (before r : Reading) : Prop where
  next : before.next? = some r
  written : r.written = .op .sub :: .num 0 :: .opening :: before.written
  pending : r.pending = (r.depth + 1) :: before.pending
  earlier : ∀ d ∈ before.pending, d ≤ r.depth
  rest : r.rest.head? = some .opening

/-- The depths pending are within the counter, but for one that was just added. -/
theorem pending_within {l : List Symbol} {r : Reading} (h : Reached l r) :
    (∀ d ∈ r.pending, d ≤ r.depth) ∨ ∃ before, Reached l before ∧ Wrapped before r := by
  cases h with
  | start => exact Or.inl (by simp [Reading.start])
  | @next before _ hbefore hn =>
    obtain ⟨read, gs, -, htracked⟩ := tracked_reached hbefore
    have within : before.rest.head? ≠ some .opening → ∀ d ∈ before.pending, d ≤ before.depth := by
      intro hr
      rw [reading_of_inside htracked.inside hr]
      exact Settling.ends_le gs
    obtain ⟨taken, hturn⟩ := turn_of_next hn
    cases hturn with
    | plain ht hw hr => exact Or.inl (within (not_opening_of ht hr))
    | wrap hr =>
      refine Or.inr ⟨before, hbefore, hn, rfl, rfl, ?_, rfl⟩
      intro d hd
      exact Nat.le_succ_of_le (within (by simp [hr]) d hd)
    | opening hr =>
      left
      cases htracked.inside with
      | groups w gs rest => exact fun d hd => Nat.le_succ_of_le (Settling.ends_le gs d hd)
      | wrapped w gs rest =>
        intro d hd
        rcases List.mem_cons.mp hd with rfl | hd
        · exact Nat.le_refl _
        · have := Settling.ends_le gs d hd
          show d ≤ depth gs + 1 + 1
          omega
    | closing hr =>
      left
      rw [reading_of_inside htracked.inside (by simp [hr]), hr, close_eq]
      exact Settling.ends_le gs.tail

theorem pending_of_reached {l : List Symbol} {r : Reading} (h : Reached l r) :
    r.pending.Pairwise (· > ·) ∧ ∀ d ∈ r.pending, 2 ≤ d := by
  obtain ⟨read, gs, -, htracked⟩ := tracked_reached h
  cases htracked.inside with
  | groups w gs rest => exact ⟨ends_descending gs, two_le_ends⟩
  | wrapped w gs rest => exact ⟨ends_descending (true :: gs), @two_le_ends (true :: gs)⟩

/-- What was read and written so far. -/
theorem counts_of_reached {l : List Symbol} {r : Reading} (h : Reached l r) :
    ∃ read rest, l = read ++ rest ∧ r.rest = foldRuns rest ∧
      (Covered read → r.written.count .opening = r.written.count .closing + r.depth) ∧
      ∃ opened closed, r.written.count .opening = read.count .opening + opened ∧
        r.written.count .closing = read.count .closing + closed ∧ opened = closed + r.pending.length := by
  obtain ⟨read, gs, hl, htracked⟩ := tracked_reached h
  obtain ⟨a, b, rfl, hb, ha⟩ := fold_runs_eq_append hl
  obtain ⟨hcovered, hopening, hclosing⟩ := parentheses_of_filter ha
  refine ⟨a, b, rfl, hb.symm, ?_, ?_⟩
  · intro hc
    exact (htracked.depth (hcovered.mp hc)).2
  · rw [hopening, hclosing]
    exact htracked.added

theorem nothing_open {l : List Symbol} {r : Reading} (h : Reached l r) (hr : r.rest = []) (hl : Balanced l) :
    r.pending = [] ∧ r.depth = 0 := by
  obtain ⟨read, gs, hread, htracked⟩ := tracked_reached h
  obtain ⟨a, b, rfl, hb, ha⟩ := fold_runs_eq_append hread
  obtain rfl := fold_runs_eq_nil (hb.trans hr)
  rw [List.append_nil] at hl
  obtain ⟨hcovered, hopening, hclosing⟩ := parentheses_of_filter ha
  obtain ⟨hcov, hcount⟩ := (balanced_iff_matched a).mp hl
  have hgs := (htracked.depth (hcovered.mp hcov)).1
  obtain rfl : gs = [] := List.length_eq_zero_iff.mp (by omega)
  rw [reading_of_inside htracked.inside (by simp [hr])]
  exact ⟨rfl, rfl⟩

/-- On every reading of any formula: the depths pending grow inwards and are 2 or more; they
    are within the counter but for one that was just added; the counter is positive where
    one of them ends; it is the number of parentheses open in what was written, until one
    closes nothing; and of the parentheses added to open a group, all but the pending ones
    have had theirs added to close it. The reading comes to its end, where nothing is open
    or pending if the parentheses of the formula match. -/
theorem reading_depths (l : List Symbol) :
    (∀ r, Reached l r →
      (r.pending.Pairwise (· > ·) ∧ ∀ d ∈ r.pending, 2 ≤ d) ∧
      ((∀ d ∈ r.pending, d ≤ r.depth) ∨ ∃ before, Reached l before ∧ Wrapped before r) ∧
      (r.rest.head? = some .closing → r.pending.head? = some r.depth → 1 ≤ r.depth) ∧
      ∃ read rest, l = read ++ rest ∧ r.rest = foldRuns rest ∧
        (Covered read → r.written.count .opening = r.written.count .closing + r.depth) ∧
        ∃ opened closed, r.written.count .opening = read.count .opening + opened ∧
          r.written.count .closing = read.count .closing + closed ∧ opened = closed + r.pending.length) ∧
    Reached l (Reading.start (foldRuns l)).finish ∧ (Reading.start (foldRuns l)).finish.rest = [] ∧
      (Balanced l → (Reading.start (foldRuns l)).finish.pending = [] ∧ (Reading.start (foldRuns l)).finish.depth = 0) := by
  obtain ⟨hlast, hend⟩ := reached_finish (.start (l := l))
  refine ⟨?_, hlast, hend, nothing_open hlast hend⟩
  intro r h
  have hpending := pending_of_reached h
  refine ⟨hpending, pending_within h, ?_, counts_of_reached h⟩
  intro _ hd
  exact Nat.le_of_succ_le (hpending.2 r.depth (List.mem_of_head? hd))

/-- In `-(-(1))`, before the two parentheses that each end a negated group, and at the end. -/
theorem reading_depths_nested :
    let l : List Symbol := [.op .sub, .opening, .op .sub, .opening, .num 1, .closing, .closing]
    let r : Reading := ⟨[.num 1, .opening, .op .sub, .num 0, .opening, .opening, .op .sub, .num 0, .opening], 4, [4, 2],
      [.closing, .closing]⟩
    Reached l r ∧ 1 ≤ r.depth ∧
      (∃ read rest, l = read ++ rest ∧ r.rest = foldRuns rest ∧
        (Covered read → r.written.count .opening = r.written.count .closing + r.depth) ∧
        ∃ opened closed, r.written.count .opening = read.count .opening + opened ∧
          r.written.count .closing = read.count .closing + closed ∧ opened = closed + r.pending.length) ∧
      (Reading.start (foldRuns l)).finish.pending = [] ∧ (Reading.start (foldRuns l)).finish.depth = 0 := by
  intro l r
  have hreached : Reached l r := .next (.next (.next (.next (.next .start rfl) rfl) rfl) rfl) rfl
  obtain ⟨hall, -, -, hend⟩ := reading_depths l
  obtain ⟨-, -, hdepth, hcounts⟩ := hall r hreached
  exact ⟨hreached, hdepth rfl rfl, hcounts, hend rfl⟩

end Reckon.Formula
