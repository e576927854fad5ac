/-
  Reckon.Proofs.Text.Names — putting something else in the place of every name.

  The names in a text are its maximal runs of letters, and `names_induction` takes a text
  apart into these and all its other characters. `mapNames f` puts `f w` in the place of
  each name `w` and keeps all else, so what it makes of a text cut beside a name is what
  it makes of the parts (`map_names_letters`, `map_names_append`). A property of single
  characters that no name gains or loses, no text does (`any_map_names`).
-/

import Mathlib.Data.List.Basic
import Reckon.Proofs.Text.Trimming
import Reckon.Text.Name

namespace Reckon.Text

/-- The text of a name that ended, if there was one. -/
def endName (f : List Char → List Char) (word : List Char) : List Char :=
  if word = [] then [] else f word

/-- A text with its names replaced, `word` being the part of a name that was read. -/
def mapNamesFrom (f : List Char → List Char) (word : List Char) : List Char → List Char
  | [] => endName f word
  | c :: cs =>
    if c.isAlpha then mapNamesFrom f (word ++ [c]) cs else endName f word ++ c :: mapNamesFrom f [] cs

/-- A text with each name `w` replaced by `f w`. -/
def mapNames (f : List Char → List Char) (cs : List Char) : List Char := mapNamesFrom f [] cs

/-- One or more letters. -/
def Letters (w : List Char) : Prop := w ≠ [] ∧ ∀ c ∈ w, c.isAlpha = true

theorem is_name_iff {w : List Char} : isName w = true ↔ Letters w := by
  simp [isName, Letters]

theorem trimmed_letters {w : List Char} (h : Letters w) : Trimmed w := trimmed_word fun c hc => Or.inl (h.2 c hc)

/-! ## Taking a text apart -/

/-- The characters of one sort that a text begins with. -/
theorem exists_word {p : Char → Bool} {c : Char} (hc : p c = true) (cs : List Char) :
    ∃ w rest, c :: cs = w ++ rest ∧ w ≠ [] ∧ (∀ x ∈ w, p x = true) ∧ (∀ x ∈ rest.head?, p x = false) ∧
      rest.length < (c :: cs).length := by
  refine ⟨(c :: cs).takeWhile p, (c :: cs).dropWhile p, List.takeWhile_append_dropWhile.symm, by simp [hc],
    fun x hx => List.all_eq_true.mp List.all_takeWhile x hx, ?_, ?_⟩
  · intro x hx
    have := List.head?_dropWhile_not p (c :: cs)
    rw [Option.mem_def] at hx
    simpa [hx] using this
  · rw [List.dropWhile_cons_of_pos hc, List.length_cons]
    exact Nat.lt_succ_of_le (List.dropWhile_sublist p).length_le

/-- Every text is empty, or begins with a name or with a character that is no letter. -/
@[elab_as_elim]
theorem names_induction {motive : List Char → Prop} (nil : motive [])
    (plain : ∀ c cs, c.isAlpha = false → motive cs → motive (c :: cs))
    (name : ∀ w cs, Letters w → (∀ c ∈ cs.head?, c.isAlpha = false) → motive cs → motive (w ++ cs))
    (cs : List Char) : motive cs := by
  induction h : cs.length using Nat.strongRecOn generalizing cs with
  | _ n ih =>
    subst h
    cases cs with
    | nil => exact nil
    | cons c cs =>
      by_cases hc : c.isAlpha = true
      · obtain ⟨w, rest, he, hne, hw, hrest, hlt⟩ := exists_word hc cs
        rw [he]
        exact name w rest ⟨hne, hw⟩ hrest (ih rest.length hlt rest rfl)
      · exact plain c cs (by simpa using hc) (ih cs.length (by simp) cs rfl)

variable {f : List Char → List Char}

/-! ## Cutting a text beside a name -/

@[simp] theorem map_names_nil : mapNames f [] = [] := rfl

theorem map_names_from_letters {w : List Char} (hw : ∀ c ∈ w, c.isAlpha = true) (word cs : List Char) :
    mapNamesFrom f word (w ++ cs) = mapNamesFrom f (word ++ w) cs := by
  induction w generalizing word with
  | nil => simp
  | cons c w ih =>
    rw [List.cons_append, mapNamesFrom, if_pos (hw c List.mem_cons_self),
      ih (fun d hd => hw d (List.mem_cons_of_mem c hd))]
    simp

theorem map_names_letters {w cs : List Char} (hw : Letters w) (hcs : ∀ c ∈ cs.head?, c.isAlpha = false) :
    mapNames f (w ++ cs) = f w ++ mapNames f cs := by
  rw [mapNames, map_names_from_letters hw.2, List.nil_append]
  cases cs with
  | nil => simp [mapNamesFrom, mapNames, endName, hw.1]
  | cons c cs => simp [mapNamesFrom, mapNames, endName, hw.1, hcs c rfl]

theorem map_names_name {w : List Char} (hw : Letters w) : mapNames f w = f w := by
  have hnone : ∀ c ∈ ([] : List Char).head?, c.isAlpha = false := by simp
  have h := map_names_letters (f := f) hw hnone
  rwa [List.append_nil, map_names_nil, List.append_nil] at h

theorem map_names_cons {c : Char} (hc : c.isAlpha = false) (cs : List Char) :
    mapNames f (c :: cs) = c :: mapNames f cs := by
  simp [mapNames, mapNamesFrom, endName, hc]

theorem map_names_plain {a : List Char} (ha : ∀ c ∈ a, c.isAlpha = false) (cs : List Char) :
    mapNames f (a ++ cs) = a ++ mapNames f cs := by
  induction a with
  | nil => rfl
  | cons c a ih =>
    rw [List.cons_append, map_names_cons (ha c List.mem_cons_self), ih fun d hd => ha d (List.mem_cons_of_mem c hd)]
    rfl

theorem map_names_of_no_letter {a : List Char} (ha : ∀ c ∈ a, c.isAlpha = false) : mapNames f a = a := by
  have h := map_names_plain (f := f) ha []
  rwa [List.append_nil, map_names_nil, List.append_nil] at h

theorem map_names_append {b : List Char} (hb : ∀ c ∈ b.head?, c.isAlpha = false) (a : List Char) :
    mapNames f (a ++ b) = mapNames f a ++ mapNames f b := by
  induction a using names_induction with
  | nil => rfl
  | plain c cs hc ih => rw [List.cons_append, map_names_cons hc, map_names_cons hc, ih, List.cons_append]
  | name w cs hw hcs ih =>
    have hhead : ∀ c ∈ (cs ++ b).head?, c.isAlpha = false := by
      intro c hc
      cases cs with
      | nil => exact hb c hc
      | cons d cs => exact hcs c hc
    rw [List.append_assoc, map_names_letters hw hhead, map_names_letters hw hcs, ih, List.append_assoc]

/-! ## The characters that come out -/

theorem any_map_names {p : Char → Bool} (hp : ∀ w, Letters w → (f w).any p = w.any p) (cs : List Char) :
    (mapNames f cs).any p = cs.any p := by
  induction cs using names_induction with
  | nil => rfl
  | plain c cs hc ih => rw [map_names_cons hc, List.any_cons, List.any_cons, ih]
  | name w cs hw hcs ih => rw [map_names_letters hw hcs, List.any_append, List.any_append, hp w hw, ih]

theorem mem_map_names {cs : List Char} {x : Char} (hx : x ∈ mapNames f cs) : x ∈ cs ∨ ∃ w, Letters w ∧ x ∈ f w := by
  induction cs using names_induction with
  | nil => cases hx
  | plain c cs hc ih =>
    rw [map_names_cons hc] at hx
    rcases List.mem_cons.mp hx with rfl | hx
    · exact Or.inl List.mem_cons_self
    · exact (ih hx).imp_left (List.mem_cons_of_mem c)
  | name w cs hw hcs ih =>
    rw [map_names_letters hw hcs] at hx
    rcases List.mem_append.mp hx with hx | hx
    · exact Or.inr ⟨w, hw, hx⟩
    · exact (ih hx).imp_left (List.mem_append_right w)

theorem map_names_eq_nil_iff (hf : ∀ w, Letters w → f w ≠ []) {cs : List Char} : mapNames f cs = [] ↔ cs = [] := by
  cases cs using names_induction with
  | nil => simp
  | plain c cs hc => simp [map_names_cons hc]
  | name w cs hw hcs => simp [map_names_letters hw hcs, hf w hw, hw.1]

/-- What comes out first stood first, or is the beginning of what replaces a name. -/
theorem map_names_head (hf : ∀ w, Letters w → f w ≠ []) {cs : List Char} {x : Char}
    (hx : x ∈ (mapNames f cs).head?) : x ∈ cs.head? ∨ ∃ w, Letters w ∧ x ∈ (f w).head? := by
  cases cs using names_induction with
  | nil => cases hx
  | plain c cs hc =>
    rw [map_names_cons hc] at hx
    exact Or.inl hx
  | name w cs hw hcs =>
    rw [map_names_letters hw hcs, List.head?_append_of_ne_nil _ (hf w hw)] at hx
    exact Or.inr ⟨w, hw, hx⟩

/-- What comes out last stood last, or is the end of what replaces a name. -/
theorem map_names_last (hf : ∀ w, Letters w → f w ≠ []) {cs : List Char} {x : Char}
    (hx : x ∈ (mapNames f cs).getLast?) : x ∈ cs.getLast? ∨ ∃ w, Letters w ∧ x ∈ (f w).getLast? := by
  -- Unless nothing comes after it, what was read so far has no say in the matter.
  have tail : ∀ {a b : List Char}, x ∈ b.getLast? → x ∈ (a ++ b).getLast? := by
    intro a b h
    rw [List.getLast?_append, Option.mem_def.mp h]
    rfl
  induction cs using names_induction with
  | nil => cases hx
  | plain c cs hc ih =>
    rw [map_names_cons hc] at hx
    by_cases hn : cs = []
    · subst hn
      exact Or.inl hx
    · have hne : mapNames f cs ≠ [] := fun h => hn ((map_names_eq_nil_iff hf).mp h)
      rw [← List.singleton_append, List.getLast?_append_of_ne_nil [c] hne] at hx
      exact (ih hx).imp_left (tail (a := [c]))
  | name w cs hw hcs ih =>
    rw [map_names_letters hw hcs] at hx
    by_cases hn : cs = []
    · subst hn
      rw [map_names_nil, List.append_nil] at hx
      exact Or.inr ⟨w, hw, hx⟩
    · have hne : mapNames f cs ≠ [] := fun h => hn ((map_names_eq_nil_iff hf).mp h)
      rw [List.getLast?_append_of_ne_nil (f w) hne] at hx
      exact (ih hx).imp_left tail

theorem trim_map_names (hne : ∀ w, Letters w → f w ≠ []) (hends : ∀ w, Letters w → Trimmed (f w)) (cs : List Char) :
    trim (mapNames f cs) = mapNames f (trim cs) := by
  obtain ⟨before, after, he, hb, ha⟩ := trim_splits cs
  have hafter : ∀ c ∈ after.head?, c.isAlpha = false := fun c hc => letter_of_blank (ha c (List.mem_of_head? hc))
  have hplain : mapNames f after = after := map_names_of_no_letter fun c hc => letter_of_blank (ha c hc)
  have hcs : mapNames f cs = before ++ mapNames f (trim cs) ++ after := by
    calc mapNames f cs = mapNames f (before ++ trim cs ++ after) := congrArg (mapNames f) he
      _ = mapNames f (before ++ trim cs) ++ after := by rw [map_names_append hafter, hplain]
      _ = before ++ mapNames f (trim cs) ++ after := by
        rw [map_names_plain fun c hc => letter_of_blank (hb c hc)]
  rw [hcs]
  refine trim_around hb ha ⟨?_, ?_⟩
  · intro c hc
    rcases map_names_head hne hc with h | ⟨w, hw, h⟩
    · exact trim_head h
    · exact (hends w hw).1 c h
  · intro c hc
    rcases map_names_last hne hc with h | ⟨w, hw, h⟩
    · exact trim_last h
    · exact (hends w hw).2 c h

end Reckon.Text
