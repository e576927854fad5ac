/-
  Reckon.Proofs.Session.Integrity — the variables under every request there is.

  Lines are entered or only computed, and names are bound without a line, by an
  assignment or directly (`Request`). Whatever the order and the arguments, starting from
  no variables (`requests_keep_variables`):
  (1) every bound name is one or more ASCII letters;
  (2) a name that is bound stays bound;
  (3) a request that is refused, shows a value or enters a blank line changes nothing;
  (4) any other request binds the one name that it is about (`Request.Binds`), changes no
      other name, and adds at most one.
  `perform_cases` says all that one request can do; the rest follows from it. A request is
  carried out on the variables themselves, and a fault undoes nothing (`perform`).
-/

import Reckon.Proofs.Session.Entering
import Reckon.Proofs.Session.Transcript
import Reckon.Proofs.Variables.InPlace

namespace Reckon

/-! ## Requests -/

inductive Request where
  /-- A line is entered; the limits are `{}` where none are chosen. -/
  | enter (limits : Limits) (line : String)
  /-- An expression is computed without entering it. -/
  | compute (limits : Limits) (line : String)
  /-- A name is bound to what a text stands for, neither of them read from a line. -/
  | assign (lhs rhs : String)
  | set (name : String) (value : Int)
  deriving DecidableEq

inductive Answer where
  | value (v : Int)
  | done
  | refused (fault : Fault)
  | misnamed (error : Variables.NameError)
  deriving DecidableEq

namespace Answer

def ofResult : Except Fault (Option Int) → Answer
  | .ok (some v) => value v
  | .ok none => done
  | .error fault => refused fault

def ofOutcome : Outcome → Answer
  | .value v => value v
  | .quiet => done
  | .refused fault => refused fault

end Answer

/-- A line is entered on the variables themselves. -/
def enterInPlace (limits : Limits) (line : String) : Variables.Change Fault (Option Int) := do
  match Line.ofString line with
  | .error fault => throw fault
  | .ok .blank => return none
  | .ok (.assignment lhs rhs) =>
    Variables.assignInPlace lhs rhs
    return none
  | .ok (.expression tokens) =>
    match computeTokens limits (← get) tokens with
    | .error fault => throw fault
    | .ok v => return some v

/-- The answer to a request, and the variables after it. What a request did to them before it
    failed is not undone. -/
def perform (vars : Variables) : Request → Answer × Variables
  | .enter limits line =>
    let (result, after) := (enterInPlace limits line).on vars
    (.ofResult result, after)
  | .compute limits line =>
    match Reckon.compute limits vars line with
    | .ok v => (.value v, vars)
    | .error fault => (.refused fault, vars)
  | .assign lhs rhs =>
    match (Variables.assignInPlace lhs rhs).on vars with
    | (.ok (), after) => (.done, after)
    | (.error fault, after) => (.refused fault, after)
  | .set name value =>
    match (Variables.setInPlace name value).on vars with
    | (.ok (), after) => (.done, after)
    | (.error error, after) => (.misnamed error, after)

namespace Request

/-- A blank line is entered. -/
def isBlank : Request → Bool
  | enter _ line => (Text.trim line.toList).isEmpty
  | compute .. | assign .. | set .. => false

/-- The name that a request is to bind, and the value for it. -/
inductive Binds (vars : Variables) : Request → String → Int → Prop
  | enter {limits : Limits} {line lhs rhs : String} {value : Int} :
      Line.ofString line = .ok (.assignment lhs rhs) → vars.Denotes rhs value →
      Binds vars (.enter limits line) lhs value
  | assign {lhs rhs : String} {value : Int} : vars.Denotes rhs value → Binds vars (.assign lhs rhs) lhs value
  | set {name : String} {value : Int} : Binds vars (.set name value) name value

theorem Binds.unique {vars : Variables} {r : Request} {m n : String} {v w : Int} (hm : r.Binds vars m v)
    (hn : r.Binds vars n w) : n = m ∧ w = v := by
  cases hm with
  | enter hline hv =>
    cases hn with
    | enter hline' hw =>
      cases hline.symm.trans hline'
      exact ⟨rfl, hw.unique hv⟩
  | assign hv =>
    cases hn with
    | assign hw => exact ⟨rfl, hw.unique hv⟩
  | set =>
    cases hn
    exact ⟨rfl, rfl⟩

theorem Binds.not_blank {vars : Variables} {r : Request} {name : String} {value : Int}
    (h : r.Binds vars name value) : r.isBlank = false := by
  cases h with
  | @enter limits line lhs rhs value hline hv =>
    cases hb : (Request.enter limits line).isBlank with
    | false => rfl
    | true =>
      rw [of_string_blank_iff.mpr (List.isEmpty_iff.mp hb)] at hline
      cases hline
  | assign | set => rfl

end Request

/-! ## One request -/

theorem perform_enter (limits : Limits) (vars : Variables) (line : String) :
    perform vars (.enter limits line) = (.ofOutcome (enter limits vars line).1, (enter limits vars line).2) := by
  rw [perform, enterInPlace, enter]
  cases Line.ofString line with
  | error fault => rfl
  | ok l =>
    cases l with
    | blank => rfl
    | expression tokens =>
      rw [Variables.Change.on_bind, Variables.Change.on_get]
      simp only
      cases computeTokens limits vars tokens <;> rfl
    | assignment lhs rhs =>
      rw [Variables.Change.on_bind, Variables.assign_in_place_eq]
      simp only
      cases vars.assign lhs rhs <;> rfl

theorem perform_assign (vars : Variables) (lhs rhs : String) : perform vars (.assign lhs rhs) =
    match vars.assign lhs rhs with
    | .ok after => (.done, after)
    | .error fault => (.refused fault, vars) := by
  rw [perform, Variables.assign_in_place_eq]
  cases vars.assign lhs rhs <;> rfl

theorem perform_set (vars : Variables) (name : String) (value : Int) : perform vars (.set name value) =
    match vars.set name value with
    | .ok after => (.done, after)
    | .error error => (.misnamed error, vars) := by
  rw [perform, Variables.set_in_place_eq]
  cases vars.set name value <;> rfl

/-- A request binds the name that it is about, or enters a blank line, or has another
    answer and leaves the variables alone. -/
theorem perform_cases (vars : Variables) (r : Request) :
    (∃ name value, r.Binds vars name value ∧ isVariableName name = true ∧
        perform vars r = (.done, vars.insert name value)) ∨
      (r.isBlank = true ∧ perform vars r = (.done, vars)) ∨
      ∃ answer, answer ≠ .done ∧ perform vars r = (answer, vars) := by
  cases r with
  | enter limits line =>
    rcases enter_cases limits vars line with ⟨lhs, rhs, value, hline, hrhs, hlhs, he⟩ | ⟨hb, he⟩ | ⟨v, he⟩ | ⟨fault, he⟩
    · exact Or.inl ⟨lhs, value, .enter hline hrhs, hlhs, by rw [perform_enter, he]; rfl⟩
    · exact Or.inr (Or.inl ⟨List.isEmpty_iff.mpr hb, by rw [perform_enter, he]; rfl⟩)
    · exact Or.inr (Or.inr ⟨.value v, by simp, by rw [perform_enter, he]; rfl⟩)
    · exact Or.inr (Or.inr ⟨.refused fault, by simp, by rw [perform_enter, he]; rfl⟩)
  | compute limits line =>
    cases hc : compute limits vars line with
    | ok v => exact Or.inr (Or.inr ⟨.value v, by simp, by simp only [perform, hc]⟩)
    | error fault => exact Or.inr (Or.inr ⟨.refused fault, by simp, by simp only [perform, hc]⟩)
  | assign lhs rhs =>
    cases ha : vars.assign lhs rhs with
    | ok after =>
      obtain ⟨value, hrhs, hlhs, rfl⟩ := Variables.assign_eq_ok_iff.mp ha
      exact Or.inl ⟨lhs, value, .assign hrhs, hlhs, by simp only [perform_assign, ha]⟩
    | error fault => exact Or.inr (Or.inr ⟨.refused fault, by simp, by simp only [perform_assign, ha]⟩)
  | set name value =>
    cases hs : vars.set name value with
    | ok after =>
      obtain ⟨hname, rfl⟩ := Variables.set_eq_ok_iff.mp hs
      exact Or.inl ⟨name, value, .set, hname, by simp only [perform_set, hs]⟩
    | error error => exact Or.inr (Or.inr ⟨.misnamed error, by simp, by simp only [perform_set, hs]⟩)

theorem perform_variables (vars : Variables) (r : Request) : (perform vars r).2 = vars ∨
    ∃ name value, isVariableName name = true ∧ (perform vars r).2 = vars.insert name value := by
  rcases perform_cases vars r with ⟨name, value, -, hname, hp⟩ | ⟨-, hp⟩ | ⟨answer, -, hp⟩
  · exact Or.inr ⟨name, value, hname, by rw [hp]⟩
  · exact Or.inl (by rw [hp])
  · exact Or.inl (by rw [hp])

/-- Every bound name is a name. -/
def Variables.Named (vars : Variables) : Prop :=
  ∀ name, vars.contains name = true → isVariableName name = true

theorem named_perform (vars : Variables) (r : Request) (h : vars.Named) : (perform vars r).2.Named := by
  rcases perform_variables vars r with hp | ⟨name, value, hname, hp⟩
  · rw [hp]
    exact h
  · rw [hp]
    intro other hother
    rcases (Variables.contains_insert vars name other value).mp hother with rfl | hother
    · exact hname
    · exact h other hother

/-- Every name that is bound in the first is bound in the second. -/
def Variables.Within (a b : Variables) : Prop :=
  ∀ name, a.contains name = true → b.contains name = true

theorem within_trans (a b c : Variables) (hab : a.Within b) (hbc : b.Within c) : a.Within c :=
  fun name h => hbc name (hab name h)

theorem within_perform (vars : Variables) (r : Request) : vars.Within (perform vars r).2 := by
  intro other h
  rcases perform_variables vars r with hp | ⟨name, value, -, hp⟩
  · rw [hp]
    exact h
  · rw [hp]
    exact (Variables.contains_insert vars name other value).mpr (Or.inr h)

theorem perform_idle {vars : Variables} {r : Request}
    (h : (perform vars r).1 ≠ .done ∨ r.isBlank = true) : (perform vars r).2 = vars := by
  rcases perform_cases vars r with ⟨name, value, hb, -, hp⟩ | ⟨-, hp⟩ | ⟨answer, -, hp⟩
  · rw [hp, hb.not_blank] at h
    rcases h with h | h
    · exact absurd rfl h
    · cases h
  · rw [hp]
  · rw [hp]

theorem perform_binds {vars : Variables} {r : Request} (hdone : (perform vars r).1 = .done)
    (hblank : r.isBlank = false) :
    ∃ name value, r.Binds vars name value ∧ (perform vars r).2 = vars.insert name value := by
  rcases perform_cases vars r with ⟨name, value, hb, -, hp⟩ | ⟨hb, -⟩ | ⟨answer, ha, hp⟩
  · exact ⟨name, value, hb, by rw [hp]⟩
  · rw [hblank] at hb
    cases hb
  · rw [hp] at hdone
    exact absurd hdone ha

/-! ## All requests -/

theorem letter_bounds {c : Char} (h : c.isAlpha = true) : 'A' ≤ c ∧ c ≤ 'Z' ∨ 'a' ≤ c ∧ c ≤ 'z' := by
  simp only [Char.le_def, UInt32.le_iff_toNat_le]
  exact Text.letter_range h

theorem letters_of_name {name : String} (h : isVariableName name = true) :
    name ≠ "" ∧ ∀ c ∈ name.toList, 'A' ≤ c ∧ c ≤ 'Z' ∨ 'a' ≤ c ∧ c ≤ 'z' := by
  simp only [isVariableName, Text.isName, Bool.and_eq_true, Bool.not_eq_true', List.isEmpty_eq_false_iff,
    List.all_eq_true] at h
  refine ⟨?_, fun c hc => letter_bounds (h.2 c hc)⟩
  rintro rfl
  exact h.1 rfl

/-- Requests in any number and order bind names only, never unbind one, and change
    nothing but the name that an assignment is to. -/
theorem requests_keep_variables (requests : List Request) :
    (∀ e ∈ transcript perform .empty requests, ∀ name, e.after.contains name = true →
        name ≠ "" ∧ ∀ c ∈ name.toList, 'A' ≤ c ∧ c ≤ 'Z' ∨ 'a' ≤ c ∧ c ≤ 'z') ∧
      ((transcript perform .empty requests).Pairwise fun a b =>
        ∀ name, a.after.contains name = true → b.after.contains name = true) ∧
      (∀ e ∈ transcript perform .empty requests, e.answer ≠ .done ∨ e.input.isBlank = true → e.after = e.before) ∧
      ∀ e ∈ transcript perform .empty requests, e.answer = .done → e.input.isBlank = false →
        ∃ name value, (∀ n v, e.input.Binds e.before n v ↔ n = name ∧ v = value) ∧
          e.after.get? name = some value ∧ (∀ other, other ≠ name → e.after.get? other = e.before.get? other) ∧
          e.after.size ≤ e.before.size + 1 := by
  refine ⟨?_, ?_, ?_, ?_⟩
  · intro e he name hname
    have hempty : Variables.empty.Named := by
      intro other h
      cases h
    exact letters_of_name ((transcript_inv named_perform hempty he).2 name hname)
  · exact transcript_pairwise within_trans within_perform .empty requests
  · intro e he h
    have hstep := step_of_mem he
    rw [show e.answer = (perform e.before e.input).1 by rw [hstep]] at h
    rw [← perform_idle h, hstep]
  · intro e he hdone hblank
    have hstep := step_of_mem he
    obtain ⟨name, value, hb, hafter⟩ := perform_binds (by rw [hstep]; exact hdone) hblank
    rw [hstep] at hafter
    have hafter : e.after = e.before.insert name value := hafter
    refine ⟨name, value, fun n v => ⟨hb.unique, ?_⟩, ?_, ?_, ?_⟩
    · rintro ⟨rfl, rfl⟩
      exact hb
    · rw [hafter, Variables.get_insert_self]
    · intro other hother
      rw [hafter, Variables.get_insert_of_ne _ hother]
    · rw [hafter, Variables.size_insert]
      split <;> omega

/-- A name is bound, a line is refused, and another line copies the value of the name. -/
theorem requests_keep_variables_copy :
    let x := Variables.empty.insert "x" 3
    let refused : Step Variables Request Answer := ⟨x, .enter {} "1 / 0", .refused .divisionByZero, x⟩
    let copied : Step Variables Request Answer := ⟨x, .enter {} "y = x", .done, x.insert "y" 3⟩
    transcript perform .empty [.set "x" 3, .enter {} "1 / 0", .enter {} "y = x"] =
        [⟨.empty, .set "x" 3, .done, x⟩, refused, copied] ∧ refused.after = refused.before ∧
      ∃ name value, (∀ n v, copied.input.Binds copied.before n v ↔ n = name ∧ v = value) ∧
        copied.after.get? name = some value ∧
        (∀ other, other ≠ name → copied.after.get? other = copied.before.get? other) ∧
        copied.after.size ≤ copied.before.size + 1 := by
  intro x refused copied
  have hlog : transcript perform .empty [.set "x" 3, .enter {} "1 / 0", .enter {} "y = x"] =
      [⟨.empty, .set "x" 3, .done, x⟩, refused, copied] := by decide +kernel
  obtain ⟨-, -, hidle, hbinds⟩ :=
    requests_keep_variables [.set "x" 3, .enter {} "1 / 0", .enter {} "y = x"]
  rw [hlog] at hidle hbinds
  exact ⟨hlog, hidle refused (by simp) (Or.inl (by decide)), hbinds copied (by simp) rfl (by decide)⟩

end Reckon
