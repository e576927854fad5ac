/-
  Reckon.Proofs.Line.Refusal — why an expression is refused, by its text.

  The checks look at the ends of the text, at its tokens and where they are, at the names
  and at the parentheses of the formula. All that they look for shows in the text:
  - two neighbours clash where two digits are parted by gaps, or a letter and a digit have
    nothing between them (`any_clash_iff_crowded`);
  - a name is not bound where letters stand that are not (`ident_mem_iff`);
  - parentheses match as they do in the text (`balanced_iff_nested`).

  So the text, and which of its names are bound, decides what is reported when several
  things are wrong at once (`firstFault`, `compute_first_fault`). What is left to be found
  after that is found by the formula or by arithmetic.
-/

import Reckon.Proofs.Formula.Postorder
import Reckon.Proofs.Line.Contents

namespace Reckon

open Token (Kind Spells Readable isGap)
open Token.Lexer (Laid Joins laid_of_tokens)
open Text (NameIn)

/-! ## Characters that stand too close -/

/-- Two digits that are parted by gaps, or a letter and a digit that touch; `g` is what
    stands between them. -/
def Close (x : Char) (g : List Char) (y : Char) : Prop :=
  (g ≠ [] ∧ (∀ c ∈ g, isGap c = true) ∧ x.isDigit = true ∧ y.isDigit = true) ∨
    (g = [] ∧ (x.isAlpha = true ∧ y.isDigit = true ∨ x.isDigit = true ∧ y.isAlpha = true))

/-- Somewhere in the text two characters stand too close. -/
def Crowded (cs : List Char) : Prop := ∃ x g y, Close x g y ∧ x :: (g ++ [y]) <:+: cs

/-- The text begins too close to the character `x` before it. -/
def CrowdedAfter (x : Char) (cs : List Char) : Prop := ∃ g y, Close x g y ∧ g ++ [y] <+: cs

variable {cs g w v : List Char} {x y : Char}

theorem Close.word (h : Close x g y) :
    (x.isDigit = true ∨ x.isAlpha = true) ∧ (y.isDigit = true ∨ y.isAlpha = true) := by
  rcases h with ⟨-, -, hx, hy⟩ | ⟨-, ⟨hx, hy⟩ | ⟨hx, hy⟩⟩
  · exact ⟨Or.inl hx, Or.inl hy⟩
  · exact ⟨Or.inr hx, Or.inl hy⟩
  · exact ⟨Or.inl hx, Or.inr hy⟩

theorem Close.gaps (h : Close x g y) : ∀ c ∈ g, isGap c = true := by
  rcases h with ⟨-, hg, -⟩ | ⟨rfl, -⟩
  · exact hg
  · simp

theorem not_crowded_nil : ¬Crowded [] := by
  intro ⟨x, g, y, _, h⟩
  cases List.eq_nil_of_infix_nil h

theorem crowded_cons : Crowded (x :: cs) ↔ CrowdedAfter x cs ∨ Crowded cs := by
  constructor
  · intro ⟨c, g, y, hclose, h⟩
    rcases List.infix_cons_iff.mp h with h | h
    · obtain ⟨rfl, hprefix⟩ := List.cons_prefix_cons.mp h
      exact Or.inl ⟨g, y, hclose, hprefix⟩
    · exact Or.inr ⟨c, g, y, hclose, h⟩
  · intro h
    rcases h with ⟨g, y, hclose, h⟩ | ⟨c, g, y, hclose, h⟩
    · exact ⟨x, g, y, hclose, List.infix_cons_iff.mpr (Or.inl (List.cons_prefix_cons.mpr ⟨rfl, h⟩))⟩
    · exact ⟨c, g, y, hclose, List.infix_cons_iff.mpr (Or.inr h)⟩

/-- What is to be looked at after a character is the next one that is no gap. -/
theorem crowded_after_iff (hg : ∀ c ∈ g, isGap c = true) (hy : isGap y = false) :
    CrowdedAfter x (g ++ y :: cs) ↔ Close x g y := by
  constructor
  · intro ⟨g', y', hclose, rest, h⟩
    have hy' : isGap y' = false := (Token.word_plain hclose.word.2.symm).2
    rw [List.append_assoc, List.singleton_append] at h
    have hgaps : (g' ++ y' :: rest).takeWhile isGap = g' :=
      (Token.Lexer.skip_word hclose.gaps (by simp [hy']) 0).2
    have hleft : (g ++ y :: cs).takeWhile isGap = g := (Token.Lexer.skip_word hg (by simp [hy]) 0).2
    rw [h, hleft] at hgaps
    subst hgaps
    obtain ⟨rfl, -⟩ := List.cons.inj (List.append_cancel_left h)
    exact hclose
  · intro h
    exact ⟨g, y, h, cs, by rw [List.append_assoc, List.singleton_append]⟩

theorem not_crowded_after_gaps (hg : ∀ c ∈ g, isGap c = true) : ¬CrowdedAfter x g := by
  intro ⟨g', y, hclose, h⟩
  have hy := hg y (h.subset (by simp))
  rw [(Token.word_plain hclose.word.2.symm).2] at hy
  cases hy

theorem crowded_gaps (hg : ∀ c ∈ g, isGap c = true) (cs : List Char) : Crowded (g ++ cs) ↔ Crowded cs := by
  induction g with
  | nil => exact Iff.rfl
  | cons c g ih =>
    obtain ⟨hc, hg⟩ := List.forall_mem_cons.mp hg
    rw [List.cons_append, crowded_cons, ih hg]
    refine or_iff_right ?_
    intro ⟨g', y, hclose, _⟩
    have hword := hclose.word.1
    simp [Token.gap_plain hc] at hword

/-- Inside a word nothing stands too close. -/
theorem crowded_word {p : Char → Bool} (hp : p = Char.isDigit ∨ p = Char.isAlpha) (hne : w ≠ [])
    (hw : ∀ c ∈ w, p c = true) (cs : List Char) :
    Crowded (w ++ cs) ↔ (∃ x ∈ w.getLast?, CrowdedAfter x cs) ∨ Crowded cs := by
  induction w with
  | nil => exact absurd rfl hne
  | cons c w ih =>
    obtain ⟨hc, hw⟩ := List.forall_mem_cons.mp hw
    rw [List.cons_append, crowded_cons]
    cases w with
    | nil => simp
    | cons d w =>
      have hd := hw d List.mem_cons_self
      have hplain : isGap d = false := by
        rcases hp with rfl | rfl
        · exact (Token.word_plain (Or.inr hd)).2
        · exact (Token.word_plain (Or.inl hd)).2
      have hinside : ¬CrowdedAfter c (d :: w ++ cs) := by
        rw [List.cons_append, ← List.nil_append (d :: _), crowded_after_iff (by simp) hplain]
        rcases hp with rfl | rfl
        · simp [Close, Text.letter_of_digit hc, Text.letter_of_digit hd]
        · simp [Close, Text.digit_of_letter hc, Text.digit_of_letter hd]
      rw [or_iff_right hinside, ih (by simp) hw, List.getLast?_cons_cons]

/-! ## Tokens that clash -/

variable {k j : Kind} {pos : Nat} {ts : List Token}

theorem crowded_spelled (h : Spells w k) (cs : List Char) :
    Crowded (w ++ cs) ↔ (∃ x ∈ w.getLast?, CrowdedAfter x cs) ∨ Crowded cs := by
  cases h with
  | op | opening | closing | equals => simp [crowded_cons]
  | number hw => exact crowded_word (Or.inl rfl) hw.1 hw.2 cs
  | name hw => exact crowded_word (Or.inr rfl) hw.1 hw.2 cs

theorem clash_iff {t u : Token} : Line.clash t u = true ↔
    ((∃ m, t.kind = .num m) ∧ ∃ n, u.kind = .num n) ∨
      (t.stop = u.index ∧ ((∃ m, t.kind = .ident m) ∧ (∃ n, u.kind = .num n) ∨
        (∃ m, t.kind = .num m) ∧ ∃ n, u.kind = .ident n)) := by
  unfold Line.clash
  cases t.kind <;> cases u.kind <;> simp

/-- The end of a word and the beginning of the next are too close if the tokens clash. -/
theorem close_iff_clash (hw : Spells w k) (hx : x ∈ w.getLast?) (hv : Spells v j) (hy : y ∈ v.head?)
    (hg : ∀ c ∈ g, isGap c = true) (happart : ¬Joins w (g ++ (v ++ cs))) (i : Nat) :
    Close x g y ↔ Line.clash ⟨k, i, w.length⟩ ⟨j, i + w.length + g.length, v.length⟩ = true := by
  have hxw := List.mem_of_getLast? hx
  have hyv := List.mem_of_head? hy
  have htouch : (⟨k, i, w.length⟩ : Token).stop = i + w.length + g.length ↔ g = [] := by
    rw [← List.length_eq_zero_iff]
    show i + w.length = i + w.length + g.length ↔ g.length = 0
    omega
  -- two numbers that touch would be one
  have hdigits : x.isDigit = true → y.isDigit = true → g ≠ [] := by
    intro hxd hyd hnil
    subst hnil
    refine happart ⟨x, hx, y, ?_, Or.inl ⟨hxd, hyd⟩⟩
    rwa [List.nil_append, List.head?_append_of_ne_nil v hv.ne_nil]
  rw [clash_iff, htouch, ← hw.digit_iff hxw, ← hv.digit_iff hyv, ← hw.letter_iff hxw,
    ← hv.letter_iff hyv, Close]
  refine or_congr_left ?_
  constructor
  · intro ⟨_, _, hxd, hyd⟩
    exact ⟨hxd, hyd⟩
  · intro ⟨hxd, hyd⟩
    exact ⟨hdigits hxd hyd, hg, hxd, hyd⟩

/-- The first token clashes with the one before it if the text begins too close to that. -/
theorem crowded_after_iff_clash (hw : Spells w k) (hx : x ∈ w.getLast?) {i : Nat} (h : Laid (i + w.length) cs ts)
    (happart : ¬Joins w cs) : CrowdedAfter x cs ↔ ts.head?.any (Line.clash ⟨k, i, w.length⟩) = true := by
  cases h with
  | done _ hg => exact iff_of_false (not_crowded_after_gaps hg) (by simp)
  | @token g v cs _ j ts hg hv _ _ =>
    obtain ⟨y, v', rfl⟩ := List.exists_cons_of_ne_nil hv.ne_nil
    rw [List.cons_append, crowded_after_iff hg (hv.not_gap List.mem_cons_self), close_iff_clash hw hx hv rfl hg happart i]
    simp

/-- Some neighbours among the tokens clash exactly if characters of the text stand too close. -/
theorem any_clash_iff_crowded (h : Laid pos cs ts) : Line.anyClash ts = true ↔ Crowded cs := by
  induction h with
  | @done g pos hg =>
    have hgaps := crowded_gaps hg []
    rw [List.append_nil] at hgaps
    exact iff_of_false (by simp [Line.anyClash]) (fun h => not_crowded_nil (hgaps.mp h))
  | @token g w cs pos k ts hg hw happart hrest ih =>
    have hlast := List.getLast?_eq_some_getLast hw.ne_nil
    rw [crowded_gaps hg, crowded_spelled hw, hlast, any_clash_cons, Bool.or_eq_true,
      ← crowded_after_iff_clash hw hlast hrest happart]
    simp [ih]

/-! ## The first fault -/

/-- An operator stands first that must not be first, or last that must not be last. -/
def Dangling (cs : List Char) : Prop :=
  (∃ c ∈ cs.head?, c = '*' ∨ c = '/' ∨ c = '^') ∨ ∃ c ∈ cs.getLast?, c = '+' ∨ c = '-' ∨ c = '^'

/-- Letters stand in the text, as many in a row as there are, that are no bound name. -/
def Unbound (vars : Variables) (cs : List Char) : Prop := ∃ w, NameIn w cs ∧ vars.get? (String.ofList w) = none

/-- More groups are closed by a beginning of the text than are opened in it. -/
def Overclosed (cs : List Char) : Prop := ∃ p, p <+: cs ∧ p.count '(' < p.count ')'

open Classical in
/-- The fault that the text of an expression shows, by itself and by which names are bound:
    where it shows several, the first in this order. No `=` is in the text. -/
noncomputable def firstFault (vars : Variables) (cs : List Char) : Option Fault :=
  if Dangling cs then some .invalidExpression
  else if ∃ c ∈ cs, ¬Readable c then some .invalidExpression
  else if Crowded cs then some .invalidIdentifier
  else if cs.count '(' ≠ cs.count ')' then some .invalidExpression
  else if Unbound vars cs then some .unknownVariable
  else if Overclosed cs then some .invalidExpression
  else none

/-! ## Each check, on the text -/

variable {limits : Limits} {vars : Variables}

theorem dangles_iff : danglesAtEnds cs = true ↔ Dangling cs := by
  simp [danglesAtEnds, Dangling, Line.danglesFirst, Line.danglesLast, or_assoc, Option.any_eq_true]

theorem unreadable_iff : (∃ c ∈ cs, ¬Readable c) ↔ ¬∃ ts, Token.Lexer.tokens ⟨cs, 0⟩ = .ok ts := by
  simp [Token.Lexer.tokens_ok_iff, Token.readable_iff]

theorem kinds_of_unknown (h : ∃ c ∈ cs, ¬Readable c) : kindsOf cs = .error .invalidExpression := by
  cases ht : Token.Lexer.tokens ⟨cs, 0⟩ with
  | error e => exact kinds_of_unreadable ht
  | ok ts => exact absurd ⟨ts, ht⟩ (unreadable_iff.mp h)

/-- The checks on the tokens of a text, as checks on the text. -/
theorem passing_laid (h : Laid pos cs ts) :
    (Crowded cs → passing ts = .error .invalidIdentifier) ∧
      (¬Crowded cs → cs.count '(' ≠ cs.count ')' → passing ts = .error .invalidExpression) ∧
      (¬Crowded cs → cs.count '(' = cs.count ')' → passing ts = .ok (ts.map (·.kind))) := by
  obtain ⟨hopen, hclose⟩ := count_parens h
  have hcount : (ts.map (·.kind)).countP (· = .opening) ≠ (ts.map (·.kind)).countP (· = .closing) ↔
      cs.count '(' ≠ cs.count ')' := by
    rw [← hopen, ← hclose]
    exact Iff.rfl
  rw [passing_eq, ← any_clash_iff_crowded h]
  refine ⟨?_, ?_, ?_⟩
  · intro hc
    rw [if_pos hc]
  · intro hc hn
    rw [if_neg hc, if_pos (hcount.mpr hn)]
  · intro hc hn
    rw [if_neg hc, if_neg (fun hm => hcount.mp hm hn)]

theorem unbound_iff (h : Laid pos cs ts) :
    Unbound vars cs ↔ ∃ name, Kind.ident name ∈ ts.map (·.kind) ∧ vars.get? name = none := by
  constructor
  · intro ⟨w, hw, hv⟩
    exact ⟨String.ofList w, (ident_mem_iff h).mpr (by rwa [String.toList_ofList]), hv⟩
  · intro ⟨name, hname, hv⟩
    exact ⟨name.toList, (ident_mem_iff h).mp hname, by rwa [String.ofList_toList]⟩

theorem nested_iff_not_overclosed (h : cs.count '(' = cs.count ')') : Nested '(' ')' cs ↔ ¬Overclosed cs := by
  simp [Nested, Overclosed, h]

theorem value_of_unbalanced {xs : List Formula.Symbol} (h : ¬Formula.Balanced xs) :
    Formula.value limits xs = .error .invalidExpression := by
  rcases Formula.to_code_cases (Formula.settleSigns xs) with ⟨-, -, hb⟩ | ⟨herror, -⟩
  · exact absurd ((Formula.balanced_settle_signs xs).mp hb) h
  · rw [Formula.value, herror]
    rfl

theorem fault_of_value {xs : List Formula.Symbol} {fault : Fault} (h : Formula.value limits xs = .error fault) :
    fault = .invalidExpression ∨ fault = .divisionByZero ∨ fault = .arithmeticOverflow := by
  rcases Formula.to_code_cases (Formula.settleSigns xs) with ⟨code, hcode, -⟩ | ⟨herror, -⟩
  · rw [Formula.value, hcode] at h
    exact Formula.fault_of_run h
  · rw [Formula.value, herror] at h
    cases h
    exact Or.inl rfl

/-- What the tokens of a text come to, as far as the text tells. -/
theorem compute_laid (limits : Limits) (vars : Variables) (h : Laid pos cs ts) (he : '=' ∉ cs)
    (hcount : cs.count '(' = cs.count ')') :
    (Unbound vars cs → computeKinds limits vars (ts.map (·.kind)) = .error .unknownVariable) ∧
      (¬Unbound vars cs → Overclosed cs → computeKinds limits vars (ts.map (·.kind)) = .error .invalidExpression) ∧
      (¬Unbound vars cs → ∀ fault, computeKinds limits vars (ts.map (·.kind)) = .error fault →
        fault = .invalidExpression ∨ fault = .divisionByZero ∨ fault = .arithmeticOverflow) := by
  rw [unbound_iff h, computeKinds]
  rcases symbols_cases vars (fun hm => he ((equals_mem_iff h).mp hm)) with ⟨xs, hxs, hbound⟩ | ⟨hxs, hunbound⟩
  · have hnone : ¬∃ name, Kind.ident name ∈ ts.map (·.kind) ∧ vars.get? name = none := by
      intro h
      obtain ⟨name, hname, hv⟩ := h
      exact hbound name hname hv
    rw [hxs]
    refine ⟨fun hunbound => absurd hunbound hnone, ?_, fun _ fault hfault => fault_of_value hfault⟩
    intro _ hover
    refine value_of_unbalanced ?_
    rw [balanced_iff_nested h hxs, nested_iff_not_overclosed hcount]
    exact not_not_intro hover
  · rw [hxs]
    exact ⟨fun _ => rfl, fun hn => absurd hunbound hn, fun hn => absurd hunbound hn⟩

/-! ## What is reported -/

/-- What a text comes to that shows this fault first, or shows none. -/
def Reports (result : Except Fault Int) : Option Fault → Prop
  | some fault => result = .error fault
  | none => ∀ fault, result = .error fault →
      fault = .invalidExpression ∨ fault = .divisionByZero ∨ fault = .arithmeticOverflow

theorem reports_laid (h : Laid 0 cs ts) (hd : ¬Dangling cs) (he : '=' ∉ cs) :
    Reports ((kindsOf cs).bind (computeKinds limits vars)) (firstFault vars cs) := by
  have ht := h.tokens
  obtain ⟨hcrowded, hodd, hpass⟩ := passing_laid h
  have hknown : ¬∃ c ∈ cs, ¬Readable c := fun h => unreadable_iff.mp h ⟨ts, ht⟩
  have hkinds : kindsOf cs = passing ts := by
    rw [kinds_of_eq, if_neg (fun h => hd (dangles_iff.mp h)), Token.Lexer.ofList, ht]
  rw [firstFault, if_neg hd, if_neg hknown, hkinds]
  by_cases hc : Crowded cs
  · rw [if_pos hc, hcrowded hc]
    rfl
  rw [if_neg hc]
  by_cases hn : cs.count '(' = cs.count ')'
  · obtain ⟨hunbound, hover, hrest⟩ := compute_laid limits vars h he hn
    rw [if_neg (not_not_intro hn), hpass hc hn]
    by_cases hu : Unbound vars cs
    · rw [if_pos hu]
      exact hunbound hu
    rw [if_neg hu]
    by_cases ho : Overclosed cs
    · rw [if_pos ho]
      exact hover hu ho
    · rw [if_neg ho]
      exact hrest hu
  · rw [if_pos hn, hodd hc hn]
    rfl

/-- The first fault that the text shows is reported, whatever else is wrong. If it shows
    none, the line has a value, or its operators and operands do not fit together, or
    arithmetic fails. -/
theorem compute_first_fault (limits : Limits) (vars : Variables) {line : String} (he : '=' ∉ line.toList)
    (hne : Text.trim line.toList ≠ []) :
    Reports (compute limits vars line) (firstFault vars (Text.trim line.toList)) := by
  have hequals : '=' ∉ Text.trim line.toList := fun hm => he (Text.mem_of_mem_trim hm)
  rw [compute_expression ⟨hne, hequals⟩]
  by_cases hd : Dangling (Text.trim line.toList)
  · rw [firstFault, if_pos hd, kinds_of_eq, if_pos (dangles_iff.mpr hd)]
    rfl
  by_cases hknown : ∃ c ∈ Text.trim line.toList, ¬Readable c
  · rw [firstFault, if_neg hd, if_pos hknown, kinds_of_unknown hknown]
    rfl
  · obtain ⟨ts, ht⟩ := not_not.mp fun h => hknown (unreadable_iff.mpr h)
    exact reports_laid (laid_of_tokens ht) hd hequals

/-- Two numbers in a row, before a parenthesis that closes nothing; two names that are not
    bound, and parentheses that do not match though they are as many. -/
theorem compute_first_fault_several : compute {} .empty " 1 2 + x) " = .error .invalidIdentifier ∧
    compute {} .empty "x) + (y" = .error .unknownVariable := by
  have hnumbers := compute_first_fault {} .empty (by decide : '=' ∉ " 1 2 + x) ".toList) (by decide)
  have hnames := compute_first_fault {} .empty (by decide : '=' ∉ "x) + (y".toList) (by decide)
  rw [show Text.trim " 1 2 + x) ".toList = "1 2 + x)".toList by decide, firstFault,
    if_neg (fun h => absurd (dangles_iff.mpr h) (by decide)), if_neg (by simp [Readable])] at hnumbers
  rw [show Text.trim "x) + (y".toList = "x) + (y".toList by decide, firstFault,
    if_neg (fun h => absurd (dangles_iff.mpr h) (by decide)), if_neg (by simp [Readable])] at hnames
  constructor
  · have hcrowded : Crowded "1 2 + x)".toList :=
      ⟨'1', [' '], '2', Or.inl (by simp [isGap]), [], " + x)".toList, rfl⟩
    rwa [if_pos hcrowded] at hnumbers
  · have ht : (Token.Lexer.ofList "x) + (y".toList).tokens = .ok
        [⟨.ident "x", 0, 1⟩, ⟨.closing, 1, 1⟩, ⟨.op .add, 3, 1⟩, ⟨.opening, 5, 1⟩, ⟨.ident "y", 6, 1⟩] :=
      eq_ok_of_to_option (by decide +kernel)
    have hcrowded : ¬Crowded "x) + (y".toList :=
      fun h => absurd ((any_clash_iff_crowded (laid_of_tokens ht)).mpr h) (by decide)
    have hname : NameIn ['x'] (['x'] ++ ") + (y".toList) := .letters (Text.is_name_iff.mp (by decide)) (by simp)
    have hunbound : Unbound .empty "x) + (y".toList := ⟨['x'], hname, rfl⟩
    rwa [if_neg hcrowded, if_neg (by decide), if_pos hunbound] at hnames

end Reckon
