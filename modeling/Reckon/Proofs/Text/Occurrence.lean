/-
  Reckon.Proofs.Text.Occurrence — the names that stand in a text.

  A name stands in a text where the text has its letters and no further letter beside
  them (`NameIn`). Text that is put around another leaves the names in it as they are,
  unless a letter comes to stand beside a letter (`NameIn.append_left`,
  `NameIn.append_right`), and no other name comes to stand in them together
  (`name_in_append_iff`).
-/

import Mathlib.Data.List.Basic
import Reckon.Proofs.Text.Names
import Reckon.Proofs.Text.Trimming

namespace Reckon.Text

/-- The letters `w` stand in a text, as many letters in a row as there are. -/
def NameIn (w cs : List Char) : Prop :=
  Letters w ∧ ∃ a b, cs = a ++ w ++ b ∧ (∀ c ∈ a.getLast?, c.isAlpha = false) ∧ ∀ c ∈ b.head?, c.isAlpha = false

/-- No name goes on from the end of `a` to the beginning of `b`. -/
def Severed (a b : List Char) : Prop :=
  ∀ x ∈ a.getLast?, ∀ y ∈ b.head?, x.isAlpha = true → y.isAlpha = false

theorem severed_of_last {a : List Char} (h : ∀ c ∈ a.getLast?, c.isAlpha = false) (b : List Char) : Severed a b := by
  intro x hx y _ hxa
  rw [h x hx] at hxa
  cases hxa

theorem severed_of_head {b : List Char} (h : ∀ c ∈ b.head?, c.isAlpha = false) (a : List Char) : Severed a b :=
  fun _ _ y hy _ => h y hy

variable {w cs : List Char}

namespace NameIn

theorem letters (hw : Letters w) (h : ∀ c ∈ cs.head?, c.isAlpha = false) : NameIn w (w ++ cs) :=
  ⟨hw, [], cs, rfl, by simp, h⟩

theorem alone (hw : Letters w) : NameIn w w := by
  have hnone : ∀ c ∈ ([] : List Char).head?, c.isAlpha = false := by simp
  have h := letters hw hnone
  rwa [List.append_nil] at h

theorem append_left (h : NameIn w cs) {before : List Char} (hs : Severed before cs) : NameIn w (before ++ cs) := by
  obtain ⟨hw, a, b, rfl, ha, hb⟩ := h
  refine ⟨hw, before ++ a, b, by simp only [List.append_assoc], ?_, hb⟩
  intro c hc
  by_cases hn : a = []
  · -- The name is where `cs` begins.
    subst hn
    rw [List.append_nil] at hc
    obtain ⟨x, w, rfl⟩ := List.exists_cons_of_ne_nil hw.1
    cases hca : c.isAlpha with
    | false => rfl
    | true =>
      have hx : x.isAlpha = false := hs c hc x rfl hca
      rw [hw.2 x List.mem_cons_self] at hx
      cases hx
  · rw [List.getLast?_append_of_ne_nil before hn] at hc
    exact ha c hc

theorem append_right (h : NameIn w cs) {after : List Char} (hs : Severed cs after) : NameIn w (cs ++ after) := by
  obtain ⟨hw, a, b, rfl, ha, hb⟩ := h
  refine ⟨hw, a, b ++ after, by simp only [List.append_assoc], ha, ?_⟩
  intro c hc
  by_cases hn : b = []
  · subst hn
    rw [List.append_nil] at hs
    have hlast : w.getLast hw.1 ∈ (a ++ w).getLast? := by
      rw [List.getLast?_append_of_ne_nil a hw.1, List.getLast?_eq_some_getLast hw.1]
      rfl
    exact hs _ hlast c hc (hw.2 _ (List.getLast_mem hw.1))
  · obtain ⟨d, b, rfl⟩ := List.exists_cons_of_ne_nil hn
    exact hb c hc

theorem of_trim (h : NameIn w (trim cs)) : NameIn w cs := by
  obtain ⟨before, after, he, hb, ha⟩ := trim_splits cs
  have hleft := h.append_left (severed_of_last (fun c hc => letter_of_blank (hb c (List.mem_of_getLast? hc))) _)
  have hright := hleft.append_right (severed_of_head (fun c hc => letter_of_blank (ha c (List.mem_of_head? hc))) _)
  rwa [← he] at hright

theorem mem (h : NameIn w cs) {c : Char} (hc : c ∈ w) : c ∈ cs := by
  obtain ⟨-, a, b, rfl, -, -⟩ := h
  exact List.mem_append_left b (List.mem_append_right a hc)

end NameIn

/-- Letters that are cut where no name goes on are all on one side. -/
theorem nil_of_severed {x u v y : List Char} (h : Severed (x ++ u) (v ++ y))
    (hletters : ∀ c ∈ u ++ v, c.isAlpha = true) : u = [] ∨ v = [] := by
  obtain ⟨hu, hv⟩ := List.forall_mem_append.mp hletters
  by_contra hne
  obtain ⟨hune, hvne⟩ := not_or.mp hne
  have hlast : u.getLast hune ∈ (x ++ u).getLast? := by
    rw [List.getLast?_append_of_ne_nil x hune]
    exact List.getLast?_eq_some_getLast hune
  have hhead : v.head hvne ∈ (v ++ y).head? := by
    rw [List.head?_append_of_ne_nil v hvne]
    exact List.head?_eq_some_head hvne
  have hsevered := h _ hlast _ hhead (hu _ (List.getLast_mem hune))
  rw [hv _ (List.head_mem hvne)] at hsevered
  cases hsevered

/-- A name in two texts, one after the other, stands in one of them or goes on from the
    first to the second. -/
theorem name_in_append_iff {a b : List Char} (h : Severed a b) : NameIn w (a ++ b) ↔ NameIn w a ∨ NameIn w b := by
  constructor
  · rintro ⟨hw, x, y, he, hx, hy⟩
    rw [List.append_assoc] at he
    rcases List.append_eq_append_iff.mp he with ⟨x', rfl, hb⟩ | ⟨a', rfl, ha⟩
    · -- The name begins in the second text.
      refine Or.inr ⟨hw, x', y, by rw [hb, List.append_assoc], ?_, hy⟩
      intro c hc
      exact hx c (List.mem_getLast?_append_of_mem_getLast? hc)
    · rcases List.append_eq_append_iff.mp ha with ⟨a'', rfl, hy'⟩ | ⟨w', rfl, hb⟩
      · -- The name ends in the first one.
        refine Or.inl ⟨hw, x, a'', by rw [List.append_assoc], hx, ?_⟩
        intro c hc
        exact hy c (by rw [hy']; exact List.mem_head?_append_of_mem_head? hc)
      · rcases nil_of_severed (hb ▸ h) hw.2 with rfl | rfl
        · exact Or.inr ⟨hw, [], y, hb, by simp, hy⟩
        · rw [List.append_nil] at hw ⊢
          exact Or.inl ⟨hw, x, [], (List.append_nil _).symm, hx, by simp⟩
  · rintro (hw | hw)
    · exact hw.append_right h
    · exact hw.append_left h

theorem not_name_in_of_no_letter (h : ∀ c ∈ cs, c.isAlpha = false) : ¬NameIn w cs := by
  intro hw
  obtain ⟨c, hc⟩ := List.exists_mem_of_ne_nil w hw.1.1
  have hplain := h c (hw.mem hc)
  rw [hw.1.2 c hc] at hplain
  cases hplain

/-- The only name in a word of letters is the whole word. -/
theorem name_in_letters_iff (h : Letters cs) : NameIn w cs ↔ w = cs := by
  constructor
  · rintro ⟨hw, a, b, rfl, ha, hb⟩
    have hletters := List.forall_mem_append.mp h.2
    have hbefore : a = [] := by
      by_contra hn
      have hlast := ha _ (List.getLast?_eq_some_getLast hn)
      rw [(List.forall_mem_append.mp hletters.1).1 _ (List.getLast_mem hn)] at hlast
      cases hlast
    have hafter : b = [] := by
      by_contra hn
      have hhead := hb _ (List.head?_eq_some_head hn)
      rw [hletters.2 _ (List.head_mem hn)] at hhead
      cases hhead
    rw [hbefore, hafter, List.append_nil, List.nil_append]
  · rintro rfl
    exact .alone h

end Reckon.Text
