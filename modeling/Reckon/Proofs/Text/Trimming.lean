/-
  Reckon.Proofs.Text.Trimming — blanks at the ends of a text put together from parts.

  Letters and digits are no blanks (`blank_of_word`). Trimming stops at a character that is
  no blank: it takes nothing from between two such characters (`trim_between`) or from a
  text that has no blanks at its ends (`trim_append_trimmed`), and all of the blanks around
  such a text (`trim_around`). Blanks that are put around a text make no difference
  (`trim_blanks`), nor do those that are trimmed away on one side first (`trim_trim_left`,
  `trim_trim_right`).
-/

import Reckon.Text.Blank

namespace Reckon.Text

/-! ## Letters and digits -/

theorem letter_range {c : Char} (h : c.isAlpha = true) :
    65 ≤ c.toNat ∧ c.toNat ≤ 90 ∨ 97 ≤ c.toNat ∧ c.toNat ≤ 122 := by
  have h : (decide (c.val ≥ 65 ∧ c.val ≤ 90) || (c.val ≥ 97 && c.val ≤ 122)) = true := h
  simp only [Bool.or_eq_true, Bool.and_eq_true, decide_eq_true_eq, ge_iff_le, UInt32.le_iff_toNat_le] at h
  exact h

theorem digit_range {c : Char} (h : c.isDigit = true) : 48 ≤ c.toNat ∧ c.toNat ≤ 57 := by
  have h : (c.val ≥ 48 && c.val ≤ 57) = true := h
  simp only [Bool.and_eq_true, decide_eq_true_eq, ge_iff_le, UInt32.le_iff_toNat_le] at h
  exact h

theorem digit_of_letter {c : Char} (h : c.isAlpha = true) : c.isDigit = false := by
  cases hd : c.isDigit with
  | false => rfl
  | true =>
    have hl := letter_range h
    have hr := digit_range hd
    omega

theorem letter_of_digit {c : Char} (h : c.isDigit = true) : c.isAlpha = false := by
  cases ha : c.isAlpha with
  | false => rfl
  | true =>
    have := digit_of_letter ha
    rw [h] at this
    cases this

theorem blank_of_word {c : Char} (h : c.isAlpha = true ∨ c.isDigit = true) : isBlank c = false := by
  have hr : 48 ≤ c.toNat ∧ c.toNat ≤ 122 := by
    rcases h with h | h
    · have := letter_range h
      omega
    · have := digit_range h
      omega
  simp only [isBlank, Bool.or_eq_false_iff, Bool.and_eq_false_iff, decide_eq_false_iff_not, beq_eq_false_iff_ne]
  omega

theorem letter_of_blank {c : Char} (h : isBlank c = true) : c.isAlpha = false := by
  cases ha : c.isAlpha with
  | false => rfl
  | true =>
    have := blank_of_word (Or.inl ha)
    rw [h] at this
    cases this

/-! ## Blanks at the ends -/

theorem trim_left_append {c : Char} (hc : isBlank c = false) (a b : List Char) :
    trimLeft (a ++ c :: b) = trimLeft a ++ c :: b := by
  unfold trimLeft
  rw [List.dropWhile_append]
  split
  · rename_i h
    rw [List.isEmpty_iff.mp h, List.dropWhile_cons_of_neg (by simp [hc])]
    rfl
  · rfl

theorem trim_right_append {c : Char} (hc : isBlank c = false) (a b : List Char) :
    trimRight (a ++ c :: b) = a ++ c :: trimRight b := by
  have h := trim_left_append hc b.reverse a.reverse
  unfold trimLeft at h
  unfold trimRight
  rw [List.reverse_append, List.reverse_cons, List.append_assoc, List.singleton_append, h]
  simp

/-- A character that is no blank stays, and what is trimmed away is at the ends of the
    parts before and after it. -/
theorem trim_append {c : Char} (hc : isBlank c = false) (a b : List Char) :
    trim (a ++ c :: b) = trimLeft a ++ c :: trimRight b := by
  rw [trim, trim_left_append hc, trim_right_append hc]

theorem trim_between {c d : Char} (hc : isBlank c = false) (hd : isBlank d = false) (a m b : List Char) :
    trim (a ++ c :: (m ++ d :: b)) = trimLeft a ++ c :: (m ++ d :: trimRight b) := by
  rw [trim_append hc, trim_right_append hd]

theorem trim_left_blanks {a : List Char} (ha : ∀ c ∈ a, isBlank c = true) (b : List Char) :
    trimLeft (a ++ b) = trimLeft b :=
  List.dropWhile_append_of_pos ha

theorem trim_right_blanks {b : List Char} (hb : ∀ c ∈ b, isBlank c = true) (a : List Char) :
    trimRight (a ++ b) = trimRight a := by
  have h := trim_left_blanks (a := b.reverse) (fun c hc => hb c (List.mem_reverse.mp hc)) a.reverse
  unfold trimLeft at h
  rw [trimRight, List.reverse_append, h, trimRight]

/-- A text without blanks at its ends. -/
def Trimmed (cs : List Char) : Prop :=
  (∀ c ∈ cs.head?, isBlank c = false) ∧ ∀ c ∈ cs.getLast?, isBlank c = false

theorem trimmed_word {cs : List Char} (h : ∀ c ∈ cs, c.isAlpha = true ∨ c.isDigit = true) : Trimmed cs :=
  ⟨fun c hc => blank_of_word (h c (List.mem_of_head? hc)), fun c hc => blank_of_word (h c (List.mem_of_getLast? hc))⟩

theorem trim_left_trimmed {cs : List Char} (h : Trimmed cs) : trimLeft cs = cs := by
  cases cs with
  | nil => rfl
  | cons c cs => exact List.dropWhile_cons_of_neg (by simp [h.1 c rfl])

theorem trim_right_trimmed {cs : List Char} (h : Trimmed cs) : trimRight cs = cs := by
  rcases List.eq_nil_or_concat cs with rfl | ⟨init, c, rfl⟩
  · rfl
  · simpa [trimRight] using trim_right_append (h.2 c (by simp)) init []

theorem trim_trimmed {cs : List Char} (h : Trimmed cs) : trim cs = cs := by
  rw [trim, trim_left_trimmed h, trim_right_trimmed h]

theorem trim_around {before cs after : List Char} (hb : ∀ c ∈ before, isBlank c = true)
    (ha : ∀ c ∈ after, isBlank c = true) (h : Trimmed cs) : trim (before ++ cs ++ after) = cs := by
  rw [trim, List.append_assoc, trim_left_blanks hb]
  cases cs with
  | nil =>
    have hn : trimLeft (after ++ []) = trimLeft [] := trim_left_blanks ha []
    rw [List.append_nil] at hn
    rw [List.nil_append, hn]
    rfl
  | cons c cs =>
    have hl : trimLeft (c :: cs ++ after) = c :: cs ++ after := trim_left_append (h.1 c rfl) [] (cs ++ after)
    rw [hl, trim_right_blanks ha, trim_right_trimmed h]

/-- What is trimmed away around a text without blanks at its ends is at the ends of the
    parts before and after it. -/
theorem trim_append_trimmed {cs : List Char} (hne : cs ≠ []) (h : Trimmed cs) (a b : List Char) :
    trim (a ++ cs ++ b) = trimLeft a ++ cs ++ trimRight b := by
  have hleft : trimLeft (a ++ cs ++ b) = trimLeft a ++ cs ++ b := by
    obtain ⟨c, cs, rfl⟩ := List.exists_cons_of_ne_nil hne
    simpa using trim_left_append (h.1 c rfl) a (cs ++ b)
  rw [trim, hleft]
  obtain ⟨init, d, rfl⟩ := (List.eq_nil_or_concat cs).resolve_left hne
  simpa using trim_right_append (h.2 d (by simp)) (trimLeft a ++ init) b

theorem trimmed_trim (cs : List Char) : Trimmed (trim cs) :=
  ⟨fun _ hc => trim_head hc, fun _ hc => trim_last hc⟩

theorem trim_blanks {before after : List Char} (hb : ∀ c ∈ before, isBlank c = true)
    (ha : ∀ c ∈ after, isBlank c = true) (cs : List Char) : trim (before ++ cs ++ after) = trim cs := by
  obtain ⟨b, a, he, hb', ha'⟩ := trim_splits cs
  have hcs : before ++ cs ++ after = (before ++ b) ++ trim cs ++ (a ++ after) := by
    have h := congrArg (before ++ · ++ after) he
    simpa only [List.append_assoc] using h
  rw [hcs]
  refine trim_around ?_ ?_ (trimmed_trim cs)
  · intro c hc
    rcases List.mem_append.mp hc with hc | hc
    · exact hb c hc
    · exact hb' c hc
  · intro c hc
    rcases List.mem_append.mp hc with hc | hc
    · exact ha' c hc
    · exact ha c hc

@[simp] theorem trim_trim_left (cs : List Char) : trim (trimLeft cs) = trim cs := by
  have hb : ∀ c ∈ cs.takeWhile isBlank, isBlank c = true :=
    fun c hc => List.all_eq_true.mp List.all_takeWhile c hc
  have hcs : cs.takeWhile isBlank ++ trimLeft cs = cs := List.takeWhile_append_dropWhile
  have h := trim_left_blanks hb (trimLeft cs)
  rw [hcs] at h
  exact congrArg trimRight h.symm

@[simp] theorem trim_trim_right (cs : List Char) : trim (trimRight cs) = trim cs := by
  obtain ⟨after, he, ha⟩ := trim_right_splits cs
  have hnone : ∀ c ∈ ([] : List Char), isBlank c = true := by simp
  have h := trim_blanks hnone ha (trimRight cs)
  rwa [List.nil_append, ← he, eq_comm] at h

/-- What is not trimmed away is part of the text. -/
theorem mem_of_mem_trim {cs : List Char} {c : Char} (h : c ∈ trim cs) : c ∈ cs := by
  obtain ⟨before, after, he, -, -⟩ := trim_splits cs
  rw [he]
  exact List.mem_append_left after (List.mem_append_right before h)

theorem trim_infix (cs : List Char) : trim cs <:+: cs := by
  obtain ⟨before, after, he, -, -⟩ := trim_splits cs
  exact ⟨before, after, he.symm⟩

/-- Nothing but blanks is trimmed away. -/
theorem mem_trim_iff {c : Char} (hc : isBlank c = false) {cs : List Char} : c ∈ trim cs ↔ c ∈ cs := by
  refine ⟨mem_of_mem_trim, ?_⟩
  intro h
  obtain ⟨before, after, he, hb, ha⟩ := trim_splits cs
  rw [he] at h
  rcases List.mem_append.mp h with h | h
  · rcases List.mem_append.mp h with h | h
    · rw [hb c h] at hc
      cases hc
    · exact h
  · rw [ha c h] at hc
    cases hc

end Reckon.Text
