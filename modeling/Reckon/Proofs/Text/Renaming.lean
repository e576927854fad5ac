/-
  Reckon.Proofs.Text.Renaming — giving the names in a text other names.

  A renaming takes names to names, different ones to different ones (`Renaming`). A text
  is renamed by replacing its maximal runs of letters. Letters come for letters, and at
  least one for at least one, so what the checks of a line ask of single characters is the
  same afterwards (`Renaming.any_text`): whether a text is a name, nearly a name or a
  signed integer, whether it has an `=`, and which blanks are at its ends.
-/

import Reckon.Proofs.Text.Literal
import Reckon.Proofs.Text.Names
import Reckon.Variables.Basic

namespace Reckon

open Text (mapNames Letters trim isName isMixedName)
open Text.Decimal (signed? isSigned)

/-- A text that may name a variable. -/
abbrev VariableName : Type := { name : String // isVariableName name = true }

/-- Other names for the variables, different ones for different variables. -/
structure Renaming where
  map : VariableName → VariableName
  injective : Function.Injective map

namespace Renaming

variable (r : Renaming)

/-! ## Names -/

/-- The other name for a name; a text that is no name is left as it is. -/
def name (s : String) : String := if h : isVariableName s = true then r.map ⟨s, h⟩ else s

theorem name_of_name {s : String} (h : isVariableName s = true) : r.name s = r.map ⟨s, h⟩ := dif_pos h

theorem name_of_not_name {s : String} (h : ¬isVariableName s = true) : r.name s = s := dif_neg h

@[simp] theorem is_name_name (s : String) : isVariableName (r.name s) = isVariableName s := by
  by_cases h : isVariableName s = true
  · rw [r.name_of_name h, h]
    exact (r.map ⟨s, h⟩).2
  · rw [r.name_of_not_name h]

theorem name_injective : Function.Injective r.name := by
  intro s t hst
  have hiff : isVariableName s = isVariableName t := by rw [← r.is_name_name s, hst, r.is_name_name t]
  by_cases h : isVariableName s = true
  · have h' : isVariableName t = true := hiff ▸ h
    rw [r.name_of_name h, r.name_of_name h'] at hst
    exact congrArg Subtype.val (r.injective (Subtype.ext hst))
  · have h' : ¬isVariableName t = true := hiff ▸ h
    rwa [r.name_of_not_name h, r.name_of_not_name h'] at hst

/-! ## Texts -/

/-- `name` on lists of characters. -/
def word (w : List Char) : List Char := (r.name (String.ofList w)).toList

/-- A text with other names. -/
def text (cs : List Char) : List Char := mapNames r.word cs

/-- A line with other names. -/
def line (s : String) : String := String.ofList (r.text s.toList)

variable {r}

@[simp] theorem text_nil : r.text [] = [] := rfl

theorem text_cons {c : Char} (hc : c.isAlpha = false) (cs : List Char) : r.text (c :: cs) = c :: r.text cs :=
  Text.map_names_cons hc cs

theorem text_plain {a : List Char} (ha : ∀ c ∈ a, c.isAlpha = false) (cs : List Char) :
    r.text (a ++ cs) = a ++ r.text cs :=
  Text.map_names_plain ha cs

theorem text_of_no_letter {cs : List Char} (h : ∀ c ∈ cs, c.isAlpha = false) : r.text cs = cs :=
  Text.map_names_of_no_letter h

theorem text_letters {w cs : List Char} (hw : Letters w) (hcs : ∀ c ∈ cs.head?, c.isAlpha = false) :
    r.text (w ++ cs) = r.word w ++ r.text cs :=
  Text.map_names_letters hw hcs

theorem text_append {b : List Char} (hb : ∀ c ∈ b.head?, c.isAlpha = false) (a : List Char) :
    r.text (a ++ b) = r.text a ++ r.text b :=
  Text.map_names_append hb a

variable (r)

theorem word_letters {w : List Char} (h : Letters w) : Letters (r.word w) := by
  have hname : isVariableName (String.ofList w) = true := by
    rw [isVariableName, String.toList_ofList]
    exact Text.is_name_iff.mpr h
  rw [← r.is_name_name] at hname
  exact Text.is_name_iff.mp hname

theorem any_text {p : Char → Bool} {b : Bool} (hp : ∀ c, c.isAlpha = true → p c = b) (cs : List Char) :
    (r.text cs).any p = cs.any p := by
  have letters : ∀ {w : List Char}, Letters w → w.any p = b := by
    intro w hw
    obtain ⟨c, w, rfl⟩ := List.exists_cons_of_ne_nil hw.1
    have hhead : p c = b := hp c (hw.2 c List.mem_cons_self)
    cases b with
    | true => rw [List.any_cons, hhead, Bool.true_or]
    | false =>
      rw [List.any_eq_false]
      intro x hx
      rw [hp x (hw.2 x hx)]
      exact Bool.false_ne_true
  refine Text.any_map_names ?_ cs
  intro w hw
  rw [letters (r.word_letters hw), letters hw]

theorem all_text {p : Char → Bool} {b : Bool} (hp : ∀ c, c.isAlpha = true → p c = b) (cs : List Char) :
    (r.text cs).all p = cs.all p := by
  have hnot : ∀ c, c.isAlpha = true → (!p c) = !b := fun c hc => congrArg (!·) (hp c hc)
  rw [List.all_eq_not_any_not, List.all_eq_not_any_not, r.any_text hnot]

@[simp] theorem text_eq_nil_iff {cs : List Char} : r.text cs = [] ↔ cs = [] :=
  Text.map_names_eq_nil_iff fun _ hw => (r.word_letters hw).1

@[simp] theorem trim_text (cs : List Char) : trim (r.text cs) = r.text (trim cs) :=
  Text.trim_map_names (fun _ hw => (r.word_letters hw).1) (fun _ hw => Text.trimmed_letters (r.word_letters hw)) cs

theorem mem_text_iff {c : Char} (hc : c.isAlpha = false) {cs : List Char} : c ∈ r.text cs ↔ c ∈ cs := by
  have hany : (r.text cs).any (· == c) = cs.any (· == c) := by
    refine r.any_text (b := false) ?_ cs
    intro d hd
    rw [beq_eq_false_iff_ne]
    rintro rfl
    rw [hd] at hc
    cases hc
  have mem : ∀ ds : List Char, ds.any (· == c) = true ↔ c ∈ ds := by simp
  rw [← mem, ← mem, hany]

@[simp] theorem is_name_text (cs : List Char) : isName (r.text cs) = isName cs := by
  have hempty : (r.text cs).isEmpty = cs.isEmpty := by
    rw [Bool.eq_iff_iff, List.isEmpty_iff, List.isEmpty_iff, r.text_eq_nil_iff]
  rw [isName, isName, hempty, r.all_text fun _ hc => hc]

@[simp] theorem is_mixed_name_text (cs : List Char) : isMixedName (r.text cs) = isMixedName cs := by
  have halnum : ∀ c : Char, c.isAlpha = true → c.isAlphanum = true := by
    intro c hc
    rw [Char.isAlphanum, hc, Bool.true_or]
  rw [isMixedName, isMixedName, r.all_text halnum, r.any_text fun _ hc => hc,
    r.any_text fun _ hc => Text.digit_of_letter hc]

@[simp] theorem signed_text (cs : List Char) : signed? (r.text cs) = signed? cs := by
  have none_of_letter : ∀ {cs : List Char}, cs.any Char.isAlpha = true → signed? cs = none := by
    intro cs h
    obtain ⟨c, hc, ha⟩ := List.any_eq_true.mp h
    cases hs : signed? cs with
    | none => rfl
    | some v =>
      rw [(Text.Decimal.signed_eq_some_iff.mp hs).no_letter hc] at ha
      cases ha
  by_cases h : cs.any Char.isAlpha = true
  · have htext : (r.text cs).any Char.isAlpha = true := by rw [r.any_text fun _ hc => hc, h]
    rw [none_of_letter h, none_of_letter htext]
  · have hplain : ∀ c ∈ cs, c.isAlpha = false := by simpa using h
    rw [text_of_no_letter hplain]

@[simp] theorem is_signed_text (cs : List Char) : isSigned (r.text cs) = isSigned cs := by
  rw [isSigned, isSigned, r.signed_text]

end Renaming

end Reckon
