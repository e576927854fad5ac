/-
  Reckon.Text.Blank — the white space around a line and its pieces.

  A blank is a character with the Unicode property White_Space. Lines, and the two
  sides of an assignment, lose their blanks at both ends before anything is read from
  them: `trim_splits` says that only blanks are lost, `trim_head` and `trim_last` that
  none is left at either end.
-/

namespace Reckon.Text

/-- The characters with the Unicode property White_Space. -/
def isBlank (c : Char) : Bool :=
  let n := c.toNat
  (9 ≤ n && n ≤ 13) || n == 0x20 || n == 0x85 || n == 0xA0 || n == 0x1680
    || (0x2000 ≤ n && n ≤ 0x200A) || n == 0x2028 || n == 0x2029 || n == 0x202F
    || n == 0x205F || n == 0x3000

/-- A text without its blanks on the left. -/
def trimLeft (cs : List Char) : List Char :=
  cs.dropWhile isBlank

/-- A text without its blanks on the right. -/
def trimRight (cs : List Char) : List Char :=
  (cs.reverse.dropWhile isBlank).reverse

/-- A text without its blanks at both ends. -/
def trim (cs : List Char) : List Char :=
  trimRight (trimLeft cs)

/-! ## What trimming keeps -/

theorem trim_left_head {cs : List Char} {c : Char} (h : (trimLeft cs).head? = some c) :
    isBlank c = false := by
  have hn := List.head?_dropWhile_not isBlank cs
  rw [trimLeft] at h
  simpa [h] using hn

theorem trim_right_last {cs : List Char} {c : Char} (h : (trimRight cs).getLast? = some c) :
    isBlank c = false := by
  rw [trimRight, List.getLast?_reverse] at h
  exact trim_left_head h

/-- Only blanks are lost on the right. -/
theorem trim_right_splits (cs : List Char) :
    ∃ after, cs = trimRight cs ++ after ∧ ∀ c ∈ after, isBlank c = true := by
  refine ⟨(cs.reverse.takeWhile isBlank).reverse, ?_, fun c hc => ?_⟩
  · rw [trimRight, ← List.reverse_append, List.takeWhile_append_dropWhile, List.reverse_reverse]
  · exact List.all_eq_true.mp List.all_takeWhile c (List.mem_reverse.mp hc)

/-- Only blanks are lost, and only at the two ends. -/
theorem trim_splits (cs : List Char) :
    ∃ before after, cs = before ++ trim cs ++ after ∧ (∀ c ∈ before, isBlank c = true) ∧
      ∀ c ∈ after, isBlank c = true := by
  obtain ⟨after, he, ha⟩ := trim_right_splits (trimLeft cs)
  refine ⟨cs.takeWhile isBlank, after, ?_, fun c hc => List.all_eq_true.mp List.all_takeWhile c hc, ha⟩
  rw [trim, List.append_assoc, ← he, trimLeft, List.takeWhile_append_dropWhile]

theorem trim_last {cs : List Char} {c : Char} (h : (trim cs).getLast? = some c) :
    isBlank c = false :=
  trim_right_last h

theorem trim_head {cs : List Char} {c : Char} (h : (trim cs).head? = some c) :
    isBlank c = false := by
  obtain ⟨after, he, -⟩ := trim_right_splits (trimLeft cs)
  have hl : (trimLeft cs).head? = some c := by
    rw [he, List.head?_append, show (trimRight (trimLeft cs)).head? = some c from h]
    rfl
  exact trim_left_head hl

end Reckon.Text
