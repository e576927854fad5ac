/-
  Reckon.Proofs.Session.Listing — the variables are a map, and the listing is its table.

  A history is made of requests in any number and order, of copies kept of the variables and
  of copies put back in their place (`Operation`). It can be run on the values of names
  alone, which have no order and keep nothing of what was bound before (`Bindings`). Look-up
  goes along with one request (`get_perform`), so it goes along with a history
  (`operate_all_map`): what is found in the end is what the history binds (`get_reached`).

  Everything else that can be asked of the variables is asked of that map
  (`reached_lists_bindings`): the listing is its table in ascending byte order of names, what
  is contained and counted is what is listed, and variables are equal if look-up finds the
  same in them, whatever their histories.
-/

import Mathlib.Logic.Function.Basic
import Reckon.Proofs.Session.Integrity
import Reckon.Proofs.Text.Encoding

namespace Reckon

variable {σ τ : Type}

/-! ## Histories -/

inductive Operation where
  | request (r : Request)
  /-- A copy is kept of the variables as they are. -/
  | save
  /-- A copy is put in the place of the variables, the newest being number 0. -/
  | restore (copy : Nat)
  deriving DecidableEq

/-- What the requests are made to, and the copies kept of it, the newest first. -/
structure Kept (σ : Type) where
  current : σ
  copies : List σ

def Kept.map (f : σ → τ) (k : Kept σ) : Kept τ := ⟨f k.current, k.copies.map f⟩

/-- One operation, `request` being what a request does. A copy that was never kept is not put
    back. -/
def operate (request : σ → Request → σ) (k : Kept σ) : Operation → Kept σ
  | .request r => { k with current := request k.current r }
  | .save => { k with copies := k.current :: k.copies }
  | .restore copy => { k with current := k.copies[copy]?.getD k.current }

/-- What a history comes to. -/
def operateAll (request : σ → Request → σ) (s : σ) (ops : List Operation) : σ :=
  (ops.foldl (operate request) ⟨s, []⟩).current

theorem operate_map {request : σ → Request → σ} {request' : τ → Request → τ} {f : σ → τ}
    (h : ∀ s r, f (request s r) = request' (f s) r) (k : Kept σ) (op : Operation) :
    (operate request k op).map f = operate request' (k.map f) op := by
  cases op with
  | request r => simp only [operate, Kept.map, h]
  | save => rfl
  | restore copy => simp only [operate, Kept.map, List.getElem?_map, Option.getD_map]

/-- A map of states that goes along with every request goes along with every history. -/
theorem operate_all_map {request : σ → Request → σ} {request' : τ → Request → τ} {f : σ → τ}
    (h : ∀ s r, f (request s r) = request' (f s) r) (s : σ) (ops : List Operation) :
    f (operateAll request s ops) = operateAll request' (f s) ops := by
  have hrun : ∀ k : Kept σ,
      (ops.foldl (operate request) k).map f = ops.foldl (operate request') (k.map f) := by
    induction ops with
    | nil => exact fun _ => rfl
    | cons op ops ih =>
      intro k
      rw [List.foldl_cons, List.foldl_cons, ih, operate_map h]
  exact congrArg Kept.current (hrun ⟨s, []⟩)

/-- The variables that a history comes to. -/
def reached (ops : List Operation) : Variables := operateAll (fun vars r => (perform vars r).2) .empty ops

/-! ## Bindings -/

/-- What each name is bound to. -/
abbrev Bindings := String → Option Int

namespace Bindings

/-- What the right side of an assignment stands for. -/
def source (m : Bindings) (rhs : String) : Option Int :=
  if isVariableName rhs then m rhs else Text.Decimal.signed? rhs.toList

/-- A text is to be bound to a value: it has to be a name, and there has to be a value. -/
def bind (m : Bindings) (name : String) (value : Option Int) : Bindings :=
  if isVariableName name ∧ value.isSome then Function.update m name value else m

/-- What a request does to the bindings. -/
def request (m : Bindings) : Request → Bindings
  | .enter _ line =>
    match Line.ofString line with
    | .ok (.assignment lhs rhs) => m.bind lhs (m.source rhs)
    | _ => m
  | .compute .. => m
  | .assign lhs rhs => m.bind lhs (m.source rhs)
  | .set name value => m.bind name (some value)

/-- The bindings that a history comes to. -/
def told (ops : List Operation) : Bindings := operateAll request (fun _ => none) ops

end Bindings

theorem get_insert_eq (vars : Variables) (name : String) (value : Int) :
    (vars.insert name value).get? = Function.update vars.get? name (some value) := by
  funext other
  rw [Variables.get_insert, Function.update_apply]

theorem get_set (vars : Variables) (name : String) (value : Int) :
    (perform vars (.set name value)).2.get? = Bindings.bind vars.get? name (some value) := by
  rw [perform_set]
  by_cases hname : isVariableName name = true
  · simp only [Variables.set, get_insert_eq, Bindings.bind, hname, Option.isSome_some, and_self, if_true]
  · simp [Variables.set, Bindings.bind, hname]

theorem source_to_option (vars : Variables) (rhs : String) :
    (vars.source rhs).toOption = Bindings.source vars.get? rhs := by
  unfold Variables.source Bindings.source
  split
  · cases vars.get? rhs <;> rfl
  · cases Text.Decimal.signed? rhs.toList <;> rfl

/-- An assignment that fails is one that binds nothing. -/
theorem get_assign (vars : Variables) (lhs rhs : String) :
    (perform vars (.assign lhs rhs)).2.get? = Bindings.bind vars.get? lhs (Bindings.source vars.get? rhs) := by
  rw [← source_to_option, perform_assign, Variables.assign]
  cases hs : vars.source rhs with
  | error fault => simp [Except.toOption, Bindings.bind]
  | ok value =>
    have hset := get_set vars lhs value
    rw [Except.toOption, ← hset, perform_set]
    simp only
    cases vars.set lhs value <;> rfl

/-- Look-up goes along with a request. -/
theorem get_perform (vars : Variables) (r : Request) :
    (perform vars r).2.get? = Bindings.request vars.get? r := by
  cases r with
  | set name value => exact get_set vars name value
  | assign lhs rhs => exact get_assign vars lhs rhs
  | compute limits line =>
    have hidle : (perform vars (.compute limits line)).2 = vars := by
      simp only [perform]
      split <;> rfl
    rw [hidle, Bindings.request]
  | enter limits line =>
    rw [perform_enter]
    show (enter limits vars line).2.get? = _
    cases hl : Line.ofString line with
    | error fault => simp only [enter, Bindings.request, hl]
    | ok l =>
      cases l with
      | blank => simp only [enter, Bindings.request, hl]
      | expression tokens =>
        simp only [enter, Bindings.request, hl]
        cases computeTokens limits vars tokens <;> rfl
      | assignment lhs rhs =>
        have hassign := get_assign vars lhs rhs
        rw [perform_assign] at hassign
        simp only [enter, Bindings.request, hl, ← hassign]
        cases vars.assign lhs rhs <;> rfl

theorem get_reached (ops : List Operation) : (reached ops).get? = Bindings.told ops :=
  operate_all_map get_perform .empty ops

/-! ## Listings -/

/-- Every question about the variables is answered as the bindings have it. -/
structure Variables.Lists (vars : Variables) (m : Bindings) : Prop where
  get : ∀ name, vars.get? name = m name
  listed : ∀ name value, (name, value) ∈ vars.toList ↔ m name = some value
  once : (vars.toList.map (·.1)).Nodup
  ascending : vars.toList.Pairwise fun a b => Text.Lines.encode a.1 < Text.Lines.encode b.1
  contained : ∀ name, vars.contains name = true ↔ name ∈ vars.toList.map (·.1)
  size : vars.size = vars.toList.length
  empty : vars.isEmpty = true ↔ vars.toList = []

theorem lists_get (vars : Variables) : vars.Lists vars.get? where
  get := fun _ => rfl
  listed := fun _ _ => Variables.mem_to_list_iff
  once := List.pairwise_map.mpr (vars.sorted.imp String.ne_of_lt)
  ascending := vars.sorted.imp Text.Lines.encode_lt
  contained := by
    intro name
    rw [Variables.contains_iff, List.mem_map]
    constructor
    · rintro ⟨value, h⟩
      exact ⟨(name, value), Variables.mem_to_list_iff.mpr h, rfl⟩
    · rintro ⟨⟨_, value⟩, h, rfl⟩
      exact ⟨value, Variables.mem_to_list_iff.mp h⟩
  size := rfl
  empty := List.isEmpty_iff

/-- After any history the listing is the table of what the history binds, and two histories
    come to equal variables, and to the same listing, if and only if look-up finds the same
    after both. -/
theorem reached_lists_bindings (ops other : List Operation) :
    (reached ops).Lists (Bindings.told ops) ∧
      (reached ops = reached other ↔ ∀ name, (reached ops).get? name = (reached other).get? name) ∧
      ((reached ops).toList = (reached other).toList ↔
        ∀ name, (reached ops).get? name = (reached other).get? name) := by
  refine ⟨?_, Variables.eq_iff_get, Variables.to_list_inj.trans Variables.eq_iff_get⟩
  rw [← get_reached]
  exact lists_get (reached ops)

/-- Another order, a value that is overwritten and a copy put back leave no trace. -/
example : (reached [.request (.set "b" 2), .request (.set "a" 1), .request (.set "B" 3)]).toList =
    (reached [.request (.set "B" 0), .request (.enter {} "a = 1"), .save, .request (.set "a" 7), .restore 0,
      .request (.assign "b" "+2"), .request (.set "B" 3)]).toList := by
  decide +kernel

end Reckon
