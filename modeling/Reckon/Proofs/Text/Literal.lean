/-
  Reckon.Proofs.Text.Literal — integers as a user may write them.

  A literal is one or more digits, leading zeros allowed, after one sign or none; it
  denotes the integer that its digits are worth by their places (`Literal`). These are
  the texts that `Decimal.signed?` reads, each as what it denotes (`signed_eq_some_iff`),
  and the written form of an integer is one of them (`literal_signed_digits`).
-/

import Reckon.Proofs.Text.Trimming
import Reckon.Text.Decimal.Lemmas

namespace Reckon.Text.Decimal

/-! ## What digits are worth -/

/-- One or more digits. -/
def Digits (ds : List Char) : Prop := ds ≠ [] ∧ ∀ c ∈ ds, c.isDigit = true

/-- What digits are worth: each counts ten times as much as it would one place further on. -/
def worth : List Char → Nat
  | [] => 0
  | c :: cs => (c.toNat - '0'.toNat) * 10 ^ cs.length + worth cs

theorem value_eq_worth (cs : List Char) : value cs = worth cs := by
  induction cs with
  | nil => rfl
  | cons c cs ih =>
    rw [value, Nat.ofDigitChars_cons, Nat.ofDigitChars_eq_ofDigitChars_zero, Nat.mul_zero, Nat.zero_add, worth,
      ← ih, value, Nat.mul_comm]

theorem is_natural_iff {cs : List Char} : isNatural cs = true ↔ Digits cs := by
  simp [isNatural, Digits]

theorem natural_eq_some_iff {cs : List Char} {n : Nat} : natural? cs = some n ↔ Digits cs ∧ worth cs = n := by
  rw [natural?, value_eq_worth, ← is_natural_iff]
  split <;> simp_all

/-! ## Literals -/

/-- A text of one or more digits after a single sign or none, and the integer that it
    denotes. -/
inductive Literal : List Char → Int → Prop
  | plain {ds : List Char} : Digits ds → Literal ds (worth ds)
  | plus {ds : List Char} : Digits ds → Literal ('+' :: ds) (worth ds)
  | minus {ds : List Char} : Digits ds → Literal ('-' :: ds) (-(worth ds : Int))

theorem signed_eq_some_iff {cs : List Char} {v : Int} : signed? cs = some v ↔ Literal cs v := by
  -- What stands behind the sign, if there is one, is all digits.
  have read : ∀ {f : Int → Int} {ds : List Char}, ((natural? ds).bind fun n => some (n : Int)).map f = some v →
      Digits ds ∧ f (worth ds) = v := by
    intro f ds h
    obtain ⟨i, hi, rfl⟩ := Option.map_eq_some_iff.mp h
    obtain ⟨n, hn, hni⟩ := Option.bind_eq_some_iff.mp hi
    cases hni
    obtain ⟨hd, rfl⟩ := natural_eq_some_iff.mp hn
    exact ⟨hd, rfl⟩
  constructor
  · intro h
    unfold signed? at h
    split at h
    · obtain ⟨hd, rfl⟩ := read h
      exact .minus hd
    · obtain ⟨hd, rfl⟩ := read h
      exact .plus hd
    · obtain ⟨hd, rfl⟩ := read h
      exact .plain hd
  · intro h
    cases h with
    | plain hd => rw [signed_of_natural (is_natural_iff.mpr hd), value_eq_worth]
    | plus hd => rw [signed?, natural_eq_some_iff.mpr ⟨hd, rfl⟩]; rfl
    | minus hd => rw [signed?, natural_eq_some_iff.mpr ⟨hd, rfl⟩]; rfl

theorem is_signed_iff {cs : List Char} : isSigned cs = true ↔ ∃ v, Literal cs v := by
  simp only [isSigned, Option.isSome_iff_exists, signed_eq_some_iff]

theorem literal_signed_digits (v : Int) : Literal (signedDigits v) v :=
  signed_eq_some_iff.mp (signed_signed_digits v)

/-! ## Their characters -/

namespace Literal

variable {cs : List Char} {v : Int}

theorem ne_nil (h : Literal cs v) : cs ≠ [] := by
  cases h with
  | plain hd => exact hd.1
  | plus hd | minus hd => exact List.cons_ne_nil _ _

theorem mem (h : Literal cs v) {c : Char} (hc : c ∈ cs) : c = '+' ∨ c = '-' ∨ c.isDigit = true := by
  cases h with
  | plain hd => exact Or.inr (Or.inr (hd.2 c hc))
  | plus hd =>
    rcases List.mem_cons.mp hc with rfl | hc
    · exact Or.inl rfl
    · exact Or.inr (Or.inr (hd.2 c hc))
  | minus hd =>
    rcases List.mem_cons.mp hc with rfl | hc
    · exact Or.inr (Or.inl rfl)
    · exact Or.inr (Or.inr (hd.2 c hc))

/-- A literal ends with a digit. -/
theorem last (h : Literal cs v) {c : Char} (hc : c ∈ cs.getLast?) : c.isDigit = true := by
  have signed : ∀ {s : Char} {ds : List Char}, Digits ds → c ∈ (s :: ds).getLast? → c.isDigit = true := by
    intro s ds hd hc
    rw [← List.singleton_append, List.getLast?_append_of_ne_nil [s] hd.1] at hc
    exact hd.2 c (List.mem_of_getLast? hc)
  cases h with
  | plain hd => exact hd.2 c (List.mem_of_getLast? hc)
  | plus hd | minus hd => exact signed hd hc

theorem no_letter (h : Literal cs v) {c : Char} (hc : c ∈ cs) : c.isAlpha = false := by
  rcases h.mem hc with rfl | rfl | hd
  · decide
  · decide
  · exact letter_of_digit hd

theorem not_mem_equals (h : Literal cs v) : '=' ∉ cs := by
  intro hm
  rcases h.mem hm with h | h | h <;> exact absurd h (by decide)

theorem trimmed (h : Literal cs v) : Trimmed cs := by
  constructor
  · intro c hc
    rcases h.mem (List.mem_of_head? hc) with rfl | rfl | hd
    · decide
    · decide
    · exact blank_of_word (Or.inr hd)
  · intro c hc
    exact blank_of_word (Or.inr (h.last hc))

end Literal

end Reckon.Text.Decimal
