/-
  Reckon.Proofs.Session.Transcript — a session written down, one record per step.

  A session is a function that takes what is entered to an answer and a new state, used
  over and over. Its transcript keeps, for every step, the state found, what was entered,
  the answer and the state left. What one step keeps, a whole transcript keeps:
  - `transcript_inv`: an invariant of the state holds before and after every step;
  - `transcript_pairwise`: what never shrinks in a step never shrinks later;
  - `transcript_related`: two sessions over related entries stay related.
-/

import Mathlib.Data.List.Forall2

namespace Reckon

variable {σ τ ι κ α β : Type}

structure Step (σ ι α : Type) where
  before : σ
  input : ι
  answer : α
  after : σ
  deriving DecidableEq

/-- The steps of a session that starts from a state. -/
def transcript (enter : σ → ι → α × σ) : σ → List ι → List (Step σ ι α)
  | _, [] => []
  | s, i :: is => ⟨s, i, (enter s i).1, (enter s i).2⟩ :: transcript enter (enter s i).2 is

/-- The state that a session comes to. -/
def stateAfter (enter : σ → ι → α × σ) (s : σ) (is : List ι) : σ :=
  is.foldl (fun s i => (enter s i).2) s

variable {enter : σ → ι → α × σ}

@[simp] theorem state_after_append (s : σ) (a b : List ι) :
    stateAfter enter s (a ++ b) = stateAfter enter (stateAfter enter s a) b :=
  List.foldl_append

@[simp] theorem transcript_append (s : σ) (a b : List ι) :
    transcript enter s (a ++ b) = transcript enter s a ++ transcript enter (stateAfter enter s a) b := by
  induction a generalizing s with
  | nil => rfl
  | cons i a ih => exact congrArg (_ :: ·) (ih _)

/-- What leaves every state as it is can be left out. -/
theorem state_after_filter {p : ι → Bool} (h : ∀ s i, p i = false → (enter s i).2 = s) (s : σ) (is : List ι) :
    stateAfter enter s (is.filter p) = stateAfter enter s is := by
  induction is generalizing s with
  | nil => rfl
  | cons i is ih =>
    by_cases hp : p i = true
    · rw [List.filter_cons_of_pos hp]
      exact ih (enter s i).2
    · rw [List.filter_cons_of_neg hp, ih]
      exact congrArg (stateAfter enter · is) (h s i (Bool.not_eq_true _ ▸ hp)).symm

/-- A step of a transcript is a step of the session. -/
theorem step_of_mem {s : σ} {is : List ι} {e : Step σ ι α} (h : e ∈ transcript enter s is) :
    enter e.before e.input = (e.answer, e.after) := by
  induction is generalizing s with
  | nil => cases h
  | cons i is ih =>
    rcases List.mem_cons.mp h with rfl | h
    · rfl
    · exact ih h

/-! ## What every step keeps -/

theorem transcript_inv_on {Inv : σ → Prop} {is : List ι} (hstep : ∀ s, ∀ i ∈ is, Inv s → Inv (enter s i).2) {s : σ}
    (hs : Inv s) {e : Step σ ι α} (h : e ∈ transcript enter s is) : Inv e.before ∧ Inv e.after := by
  induction is generalizing s with
  | nil => cases h
  | cons i is ih =>
    have hi : Inv (enter s i).2 := hstep s i List.mem_cons_self hs
    rcases List.mem_cons.mp h with rfl | h
    · exact ⟨hs, hi⟩
    · exact ih (fun s j hj => hstep s j (List.mem_cons_of_mem i hj)) hi h

theorem transcript_inv {Inv : σ → Prop} (hstep : ∀ s i, Inv s → Inv (enter s i).2) {s : σ} (hs : Inv s)
    {is : List ι} {e : Step σ ι α} (h : e ∈ transcript enter s is) : Inv e.before ∧ Inv e.after :=
  transcript_inv_on (fun s i _ => hstep s i) hs h

theorem transcript_reaches {R : σ → σ → Prop} (trans : ∀ a b c, R a b → R b c → R a c)
    (hstep : ∀ s i, R s (enter s i).2) {s : σ} {is : List ι} {e : Step σ ι α} (h : e ∈ transcript enter s is) :
    R s e.after := by
  induction is generalizing s with
  | nil => cases h
  | cons i is ih =>
    rcases List.mem_cons.mp h with rfl | h
    · exact hstep s i
    · exact trans _ _ _ (hstep s i) (ih h)

theorem transcript_pairwise {R : σ → σ → Prop} (trans : ∀ a b c, R a b → R b c → R a c)
    (hstep : ∀ s i, R s (enter s i).2) (s : σ) (is : List ι) :
    (transcript enter s is).Pairwise fun a b => R a.after b.after := by
  induction is generalizing s with
  | nil => exact .nil
  | cons i is ih =>
    refine List.pairwise_cons.mpr ⟨?_, ih _⟩
    intro e he
    exact transcript_reaches trans hstep he

/-! ## Two sessions side by side -/

/-- If related states and entries give related answers and related states, sessions over
    related entries stay related at every step. -/
theorem transcript_related {enter' : τ → κ → β × τ} {P : ι → κ → Prop} {R : σ → τ → Prop} {Q : α → β → Prop}
    (hstep : ∀ s t i j, P i j → R s t → R (enter s i).2 (enter' t j).2 ∧ Q (enter s i).1 (enter' t j).1)
    {s : σ} {t : τ} (h : R s t) {is : List ι} {js : List κ} (hp : List.Forall₂ P is js) :
    List.Forall₂ (fun a b => R a.after b.after ∧ Q a.answer b.answer) (transcript enter s is)
      (transcript enter' t js) := by
  induction hp generalizing s t with
  | nil => exact .nil
  | cons hij hp ih =>
    have hi := hstep s t _ _ hij h
    exact .cons hi (ih hi.1)

/-- If a map of states and one of entries commute with every step, they commute with
    sessions. -/
theorem transcript_map {enter' : τ → κ → α × τ} {f : σ → τ} {g : ι → κ}
    (hstep : ∀ s i, enter' (f s) (g i) = ((enter s i).1, f (enter s i).2)) (s : σ) (is : List ι) :
    transcript enter' (f s) (is.map g) =
      (transcript enter s is).map fun e => ⟨f e.before, g e.input, e.answer, f e.after⟩ := by
  induction is generalizing s with
  | nil => rfl
  | cons i is ih => rw [List.map_cons, transcript, transcript, List.map_cons, hstep, ih]

/-- Two sessions over the same entries. -/
theorem transcript_lockstep {enter' : τ → ι → β × τ} {R : σ → τ → Prop} {Q : α → β → Prop}
    (hstep : ∀ s t i, R s t → R (enter s i).2 (enter' t i).2 ∧ Q (enter s i).1 (enter' t i).1)
    {s : σ} {t : τ} (h : R s t) (is : List ι) :
    List.Forall₂ (fun a b => R a.after b.after ∧ Q a.answer b.answer) (transcript enter s is)
      (transcript enter' t is) := by
  refine transcript_related (P := fun i j => i = j) ?_ h (List.forall₂_refl is)
  rintro s t i _ rfl hst
  exact hstep s t i hst

end Reckon
