/-
  Reckon.Variables.Lemmas — the variables seen through look-up.

  What a name is bound to after another one is bound (`get_insert`), that the listing
  holds exactly the bindings that look-up finds (`mem_to_list_iff`), how binding a name
  lets it grow (`size_insert`), and that look-up decides equality (`ext_get`).
-/

import Reckon.Variables.Basic

namespace Reckon.Variables

/-! ## Look-up after binding -/

theorem lookup_cons_eq (e : String × Int) (es : List (String × Int)) (name : String) :
    (e :: es).lookup name = if name = e.1 then some e.2 else es.lookup name := by
  obtain ⟨k, v⟩ := e
  by_cases h : name = k
  · subst h; simp
  · simp [List.lookup_cons, beq_false_of_ne h, h]

@[simp] theorem lookup_place_self (name : String) (value : Int) (es : List (String × Int)) :
    (place name value es).lookup name = some value := by
  induction es with
  | nil => simp [place]
  | cons e es ih =>
    unfold place
    split
    · simp
    · split
      · simp
      · next hne => rw [lookup_cons_eq, if_neg hne, ih]

theorem lookup_place_of_ne {name other : String} (h : other ≠ name) (value : Int)
    (es : List (String × Int)) : (place name value es).lookup other = es.lookup other := by
  induction es with
  | nil => simp [place, h]
  | cons e es ih =>
    unfold place
    split
    · rw [lookup_cons_eq, if_neg h]
    · split
      · next he => rw [lookup_cons_eq, if_neg h, lookup_cons_eq, if_neg (he ▸ h)]
      · rw [lookup_cons_eq, lookup_cons_eq, ih]

@[simp] theorem get_empty (name : String) : empty.get? name = none := rfl

@[simp] theorem get_insert_self (vars : Variables) (name : String) (value : Int) :
    (vars.insert name value).get? name = some value :=
  lookup_place_self name value vars.entries

@[simp] theorem get_insert_of_ne (vars : Variables) {name other : String} (h : other ≠ name) (value : Int) :
    (vars.insert name value).get? other = vars.get? other :=
  lookup_place_of_ne h value vars.entries

theorem get_insert (vars : Variables) (name other : String) (value : Int) :
    (vars.insert name value).get? other = if other = name then some value else vars.get? other := by
  split
  · next h => subst h; exact get_insert_self vars other value
  · next h => exact get_insert_of_ne vars h value

/-! ## Look-up and the listing -/

theorem lookup_eq_some_of_mem {es : List (String × Int)} (hs : es.Pairwise fun a b => a.1 < b.1)
    {name : String} {value : Int} (h : (name, value) ∈ es) : es.lookup name = some value := by
  induction es with
  | nil => cases h
  | cons e es ih =>
    rcases List.mem_cons.mp h with rfl | h
    · simp
    · have hlt : e.1 < name := List.rel_of_pairwise_cons hs h
      rw [lookup_cons_eq, if_neg (String.ne_of_lt hlt).symm]
      exact ih hs.of_cons h

theorem mem_of_lookup_eq_some {es : List (String × Int)} {name : String} {value : Int}
    (h : es.lookup name = some value) : (name, value) ∈ es := by
  induction es with
  | nil => cases h
  | cons e es ih =>
    rw [lookup_cons_eq] at h
    split at h
    · next he =>
      cases h
      rw [he]
      exact List.mem_cons_self
    · exact List.mem_cons_of_mem e (ih h)

@[simp] theorem mem_to_list_iff {vars : Variables} {name : String} {value : Int} :
    (name, value) ∈ vars.toList ↔ vars.get? name = some value :=
  ⟨lookup_eq_some_of_mem vars.sorted, mem_of_lookup_eq_some⟩

theorem contains_iff {vars : Variables} {name : String} :
    vars.contains name = true ↔ ∃ value, vars.get? name = some value := by
  rw [contains, List.any_eq_true]
  constructor
  · rintro ⟨e, he, hn⟩
    exact ⟨e.2, mem_to_list_iff.mp (eq_of_beq hn ▸ he)⟩
  · rintro ⟨value, h⟩
    exact ⟨(name, value), mem_to_list_iff.mpr h, beq_self_eq_true name⟩

/-! ## Which names are bound, and how many -/

theorem contains_insert (vars : Variables) (name other : String) (value : Int) :
    (vars.insert name value).contains other = true ↔ other = name ∨ vars.contains other = true := by
  rw [contains_iff, contains_iff, get_insert]
  by_cases h : other = name
  · simp [h]
  · simp [h]

theorem length_place {es : List (String × Int)} (hs : es.Pairwise fun a b => a.1 < b.1) (name : String)
    (value : Int) :
    (place name value es).length = if es.any (·.1 == name) then es.length else es.length + 1 := by
  induction es with
  | nil => rfl
  | cons e es ih =>
    have he : ∀ d ∈ es, e.1 < d.1 := fun d hd => List.rel_of_pairwise_cons hs hd
    unfold place
    by_cases hlt : name < e.1
    · have habsent : ((e :: es).any (·.1 == name)) = false := by
        rw [List.any_eq_false]
        intro d hd hn
        have hd' : name < d.1 := by
          rcases List.mem_cons.mp hd with rfl | hd
          · exact hlt
          · exact String.lt_trans hlt (he d hd)
        exact String.ne_of_lt hd' (eq_of_beq hn).symm
      rw [if_pos hlt, habsent]
      rfl
    · by_cases heq : name = e.1
      · rw [if_neg hlt, if_pos heq, List.any_cons, heq, beq_self_eq_true, Bool.true_or, if_pos rfl]
        rfl
      · rw [if_neg hlt, if_neg heq, List.length_cons, ih hs.of_cons, List.any_cons,
          beq_false_of_ne (Ne.symm heq), Bool.false_or]
        split <;> rfl

/-- Binding a name adds one variable, or none if the name was bound already. -/
theorem size_insert (vars : Variables) (name : String) (value : Int) :
    (vars.insert name value).size = if vars.contains name then vars.size else vars.size + 1 :=
  length_place vars.sorted name value

/-! ## Look-up decides equality -/

theorem eq_of_mem_iff {es ds : List (String × Int)} (hes : es.Pairwise fun a b => a.1 < b.1)
    (hds : ds.Pairwise fun a b => a.1 < b.1) (h : ∀ e, e ∈ es ↔ e ∈ ds) : es = ds := by
  induction es generalizing ds with
  | nil =>
    cases ds with
    | nil => rfl
    | cons d ds => exact absurd ((h d).mpr List.mem_cons_self) List.not_mem_nil
  | cons e es ih =>
    cases ds with
    | nil => exact absurd ((h e).mp List.mem_cons_self) List.not_mem_nil
    | cons d ds =>
      have he : ∀ x ∈ es, e.1 < x.1 := fun x hx => List.rel_of_pairwise_cons hes hx
      have hd : ∀ x ∈ ds, d.1 < x.1 := fun x hx => List.rel_of_pairwise_cons hds hx
      have hed : e = d := by
        rcases List.mem_cons.mp ((h e).mp List.mem_cons_self) with hh | hh
        · exact hh
        · rcases List.mem_cons.mp ((h d).mpr List.mem_cons_self) with hh' | hh'
          · exact hh'.symm
          · exact absurd (hd e hh) (String.lt_asymm (he d hh'))
      subst hed
      rw [ih hes.of_cons hds.of_cons fun x => ?_]
      constructor
      · intro hx
        rcases List.mem_cons.mp ((h x).mp (List.mem_cons_of_mem e hx)) with rfl | hx'
        · exact absurd (he x hx) (String.lt_irrefl x.1)
        · exact hx'
      · intro hx
        rcases List.mem_cons.mp ((h x).mpr (List.mem_cons_of_mem e hx)) with rfl | hx'
        · exact absurd (hd x hx) (String.lt_irrefl x.1)
        · exact hx'

/-- Variables with the same value for every name are the same. -/
theorem ext_get {a b : Variables} (h : ∀ name, a.get? name = b.get? name) : a = b := by
  have he : a.entries = b.entries := by
    refine eq_of_mem_iff a.sorted b.sorted fun e => ?_
    rw [show e ∈ a.entries ↔ a.get? e.1 = some e.2 from mem_to_list_iff,
      show e ∈ b.entries ↔ b.get? e.1 = some e.2 from mem_to_list_iff, h]
  cases a
  cases b
  cases he
  rfl

theorem eq_iff_get {a b : Variables} : a = b ↔ ∀ name, a.get? name = b.get? name := by
  refine ⟨?_, Variables.ext_get⟩
  rintro rfl name
  rfl

@[simp] theorem to_list_inj {a b : Variables} : a.toList = b.toList ↔ a = b := by
  refine ⟨?_, congrArg Variables.toList⟩
  intro h
  cases a
  cases b
  cases h
  rfl

/-- Two names can be bound in either order. -/
theorem insert_comm {m n : String} (h : m ≠ n) (vars : Variables) (v w : Int) :
    (vars.insert m v).insert n w = (vars.insert n w).insert m v := by
  refine ext_get fun name => ?_
  simp only [get_insert]
  by_cases hm : name = m
  · simp [hm, h]
  · simp [hm]

/-! ## Only names are bound by `set` -/

theorem set_eq_ok_iff {vars vars' : Variables} {name : String} {value : Int} :
    vars.set name value = .ok vars' ↔ isVariableName name = true ∧ vars' = vars.insert name value := by
  unfold set
  split
  · next h => simp [h, eq_comm]
  · next h => simp [h]

end Reckon.Variables
