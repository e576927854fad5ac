/-
  Reckon.Proofs.Grammar.Acceptance — which of the lines that have a value are expressions.

  No stage parses a line, and lines outside of the grammar can have a value: in
  `(2)(3)*` the operands come first, as in the code that is run. What is true is that
  such a line has two operands with no operator between them (`compute_sentence_iff`);
  no other way of leaving the grammar has a value.

  1. Where no operands are juxtaposed, a formula has at most one number more than
     operators, and exactly one only if operands and operators alternate
     (`surplus_settle`). A formula with a value has exactly one more.
  2. Its parentheses match, or it would have no code.
  3. Tokens that alternate and whose parentheses match are an expression: reading them,
     one always has a part of an expression that the next token continues
     (`sentence_of_alternates`).
-/

import Reckon.Proofs.Formula.Parentheses
import Reckon.Proofs.Formula.Surplus
import Reckon.Proofs.Grammar.Alternation

namespace Reckon.Grammar

open Token (Kind)
open Formula (Symbol Settling Place signOf surplus balance Balanced)

variable {limits : Limits} {vars : Variables}

/-! ## Operands and operators in turn -/

/-- Whether an operand is expected. -/
def expects : Place → Bool
  | .after => false
  | .before | .binary _ | .unary _ => true

/-- The most that a formula read from here can count. -/
def room : Place → Int
  | .before | .unary _ => 1
  | .after | .binary _ => 0

/-- The kinds that a symbol may come from, an operand being expected or not. -/
theorem kind_cases {k : Kind} {x : Symbol} (h : Formula.symbolOf vars k = .ok x) :
    (∃ v, x = .num v ∧ endsOperand k = true ∧ startsOperand k = true ∧
        ∀ e ks, alternates e (k :: ks) = (e && alternates false ks)) ∨
      (∃ o, x = .op o ∧ k = .op o) ∨ (x = .opening ∧ k = .opening) ∨ (x = .closing ∧ k = .closing) := by
  cases k with
  | num n => cases h; exact Or.inl ⟨n, rfl, rfl, rfl, fun _ _ => rfl⟩
  | ident y =>
    simp only [Formula.symbolOf] at h
    cases hv : vars.get? y with
    | none => rw [hv] at h; cases h
    | some v => rw [hv] at h; cases h; exact Or.inl ⟨v, rfl, rfl, rfl, fun _ _ => rfl⟩
  | op o => cases h; exact Or.inr (Or.inl ⟨o, rfl, rfl⟩)
  | opening => cases h; exact Or.inr (Or.inr (Or.inl ⟨rfl, rfl⟩))
  | closing => cases h; exact Or.inr (Or.inr (Or.inr ⟨rfl, rfl⟩))
  | equals => cases h

theorem surplus_closed (gs : List Bool) : surplus (Settling.closed gs) = 0 := by
  rcases gs with _ | ⟨_ | _, gs⟩ <;> rfl

/-- What is written for a symbol counts no more than the room that the symbol takes up,
    and less if it is one that may not stand here. -/
theorem surplus_read {k : Kind} {x : Symbol} (h : Formula.symbolOf vars k = .ok x) (p : Place) (gs : List Bool)
    (hp : p = .after → startsOperand k = false) :
    ∃ out q gs', Settling.read ⟨p, gs⟩ x = (out, ⟨q, gs'⟩) ∧ (q = .after → endsOperand k = true) ∧
      (surplus out + room q < room p ∨
        surplus out + room q = room p ∧ ∀ ks, alternates (expects p) (k :: ks) = alternates (expects q) ks) := by
  rcases kind_cases h with ⟨v, rfl, he, hs, ha⟩ | ⟨o, rfl, rfl⟩ | ⟨rfl, rfl⟩ | ⟨rfl, rfl⟩
  · refine ⟨p.number v, .after, gs, rfl, fun _ => he, Or.inr ⟨?_, fun ks => ?_⟩⟩
    · cases p with
      | after => rw [hp rfl] at hs; cases hs
      | before | binary | unary => rfl
    · rw [ha]
      cases p with
      | after => rw [hp rfl] at hs; cases hs
      | before | binary | unary => rfl
  · by_cases ho : o.isSign = true
    · refine ⟨[], p.sign o, gs, Settling.read_sign ho _, fun hq => ?_, Or.inr ⟨?_, fun ks => ?_⟩⟩
      · cases p <;> cases hq
      · cases p <;> rfl
      · cases p <;> simp [alternates, expects, Place.sign, Place.hold, ho]
    · refine ⟨p.held ++ [.op o], .before, gs, Settling.read_operator ho _, fun hq => (by cases hq), ?_⟩
      cases p with
      | after => exact Or.inr ⟨rfl, fun ks => by simp [alternates, expects]⟩
      | before | binary | unary => exact Or.inl (by simp [Place.held, surplus, Symbol.weight, room])
  · refine ⟨p.opened, .before, p.negates :: gs, rfl, fun hq => (by cases hq), ?_⟩
    cases p with
    | after => cases hp rfl
    | before | binary => exact Or.inr ⟨rfl, fun ks => rfl⟩
    | unary m =>
      refine Or.inr ⟨?_, fun ks => rfl⟩
      by_cases hm : signOf m = .sub <;> simp [Place.opened, hm, surplus, Symbol.weight, room]
  · refine ⟨p.held ++ Settling.closed gs, .after, gs.tail, rfl, fun _ => rfl, ?_⟩
    rw [Formula.surplus_append, surplus_closed]
    cases p with
    | after => exact Or.inr ⟨rfl, fun ks => rfl⟩
    | before | binary | unary => exact Or.inl (by simp [Place.held, surplus, Symbol.weight, room])

/-- Where no operands are juxtaposed, a formula counts no more than there is room for, and
    as much only if operands and operators alternate. -/
theorem surplus_settle {ks : List Kind} {xs : List Symbol} (h : symbolsOf vars ks = .ok xs)
    (hj : juxtaposed ks = false) (p : Place) (gs : List Bool)
    (hp : p = .after → ks.head?.any startsOperand = false) :
    surplus (Settling.settle ⟨p, gs⟩ xs) < room p ∨
      surplus (Settling.settle ⟨p, gs⟩ xs) = room p ∧ alternates (expects p) ks = true := by
  induction ks generalizing xs p gs with
  | nil =>
    cases h
    show surplus p.held < _ ∨ surplus p.held = _ ∧ _
    cases p with
    | after => exact Or.inr ⟨rfl, rfl⟩
    | before | binary | unary => exact Or.inl (by simp [Place.held, surplus, Symbol.weight, room])
  | cons k ks ih =>
    obtain ⟨x, ys, hx, hys, rfl⟩ := symbols_of_cons_eq_ok h
    rw [juxtaposed_cons, Bool.or_eq_false_iff] at hj
    obtain ⟨out, q, gs', hr, hq, hread⟩ := surplus_read hx p gs fun h => by simpa using hp h
    have hrest := ih hys hj.2 q gs' fun h => by simpa [hq h] using hj.1
    rw [Settling.settle_cons, hr, Formula.surplus_append]
    rcases hread with hlt | ⟨heq, ha⟩
    · left
      rcases hrest with hrest | ⟨hrest, -⟩ <;> simp only at hrest ⊢ <;> omega
    · rcases hrest with hrest | ⟨hrest, halt⟩
      · left
        simp only at hrest ⊢
        omega
      · right
        refine ⟨?_, (ha ks).trans halt⟩
        simp only at hrest ⊢
        omega

/-- Without juxtaposed operands, what has a value alternates. -/
theorem alternates_of_value {ks : List Kind} {xs : List Symbol} {v : Int} (h : symbolsOf vars ks = .ok xs)
    (hv : Formula.value limits xs = .ok v) (hj : juxtaposed ks = false) : alternates true ks = true := by
  have hs : surplus (Formula.settleSigns xs) = 1 := Formula.surplus_of_value hv
  rw [Formula.settle_signs_eq] at hs
  rcases surplus_settle h hj .before [] (fun hn => by cases hn) with hlt | ⟨-, ha⟩
  · have hlt : surplus (Settling.start.settle xs) < 1 := hlt
    omega
  · exact ha

/-! ## Putting an expression together -/

/-- A phrase with another power at its end. -/
theorem extend_pow {level : Level} (q : Phrase level) (hq : level ≠ .atom) (signs : List Sign) (a : Phrase .atom) :
    ∃ q' : Phrase level, q'.kinds = q.kinds ++ .op .pow :: (signKinds signs ++ a.kinds) := by
  induction q with
  | num | name | group => exact absurd rfl hq
  | atom b => exact ⟨.pow (.atom b) signs a, rfl⟩
  | pow l ss r => exact ⟨.pow (.pow l ss r) signs a, rfl⟩
  | power q ih =>
    obtain ⟨q', h⟩ := ih (by simp)
    exact ⟨.power q', h⟩
  | scale l o ss r _ ihr =>
    obtain ⟨r', h⟩ := ihr (by simp)
    exact ⟨.scale l o ss r', by simp [Phrase.kinds, h]⟩
  | product ss q ih =>
    obtain ⟨q', h⟩ := ih (by simp)
    exact ⟨.product ss q', by simp [Phrase.kinds, h]⟩
  | join l s ss r _ ihr =>
    obtain ⟨r', h⟩ := ihr (by simp)
    exact ⟨.join l s ss r', by simp [Phrase.kinds, h]⟩

theorem extend_scale (s : Phrase .sum) (o : Scaling) (signs : List Sign) (a : Phrase .atom) :
    ∃ s' : Phrase .sum, s'.kinds = s.kinds ++ .op o.operator :: (signKinds signs ++ a.kinds) := by
  cases s with
  | product ss q => exact ⟨.product ss (.scale q o signs (.atom a)), by simp [Phrase.kinds]⟩
  | join l t ss q => exact ⟨.join l t ss (.scale q o signs (.atom a)), by simp [Phrase.kinds]⟩

/-- A sum with one more operator and operand at its end. -/
theorem extend_sum (s : Phrase .sum) (o : Operator) (signs : List Sign) (a : Phrase .atom) :
    ∃ s' : Phrase .sum, s'.kinds = s.kinds ++ .op o :: (signKinds signs ++ a.kinds) := by
  cases o with
  | add => exact ⟨.join s .plus signs (.power (.atom a)), rfl⟩
  | sub => exact ⟨.join s .minus signs (.power (.atom a)), rfl⟩
  | mul => exact extend_scale s .mul signs a
  | div => exact extend_scale s .div signs a
  | pow => exact extend_pow s (by simp) signs a

/-- What stands in a group, or in the line, before an operand that is expected. -/
structure Frame where
  left : Option (Phrase .sum × Operator)
  signs : List Sign

namespace Frame

def start : Frame := ⟨none, []⟩

def kinds (f : Frame) : List Kind :=
  match f.left with
  | none => signKinds f.signs
  | some (s, o) => s.kinds ++ .op o :: signKinds f.signs

theorem fill (f : Frame) (a : Phrase .atom) : ∃ s : Phrase .sum, s.kinds = f.kinds ++ a.kinds := by
  obtain ⟨left, signs⟩ := f
  cases left with
  | none => exact ⟨.product signs (.power (.atom a)), rfl⟩
  | some so =>
    obtain ⟨s', h⟩ := extend_sum so.1 so.2 signs a
    exact ⟨s', by simp [h, kinds]⟩

theorem kinds_sign (f : Frame) (s : Sign) :
    (⟨f.left, f.signs ++ [s]⟩ : Frame).kinds = f.kinds ++ [.op s.operator] := by
  obtain ⟨left, signs⟩ := f
  cases left <;> simp [kinds, signKinds]

/-- What stands before the innermost of the groups that are open. -/
def opened : List Frame → List Kind
  | [] => []
  | f :: fs => opened fs ++ (f.kinds ++ [.opening])

end Frame

theorem sign_of_operator {o : Operator} (h : o.isSign = true) : ∃ s : Sign, s.operator = o := by
  cases o with
  | add => exact ⟨.plus, rfl⟩
  | sub => exact ⟨.minus, rfl⟩
  | mul | div | pow => cases h

/-- Tokens that go on from a part of an expression and close its groups complete it. -/
theorem sentence_of_rest {ks : List Kind} {xs : List Symbol} (h : symbolsOf vars ks = .ok xs) (fs : List Frame)
    (hb : balance fs.length xs = some 0) :
    (∀ f : Frame, alternates true ks = true → IsSentence (Frame.opened fs ++ (f.kinds ++ ks))) ∧
      ∀ s : Phrase .sum, alternates false ks = true → IsSentence (Frame.opened fs ++ (s.kinds ++ ks)) := by
  induction ks generalizing xs fs with
  | nil =>
    cases h
    refine ⟨fun f ha => (by cases ha), ?_⟩
    intro s _
    cases fs with
    | nil => exact ⟨s, by simp [Frame.opened]⟩
    | cons f fs => cases hb
  | cons k ks ih =>
    obtain ⟨x, ys, hx, hys, rfl⟩ := symbols_of_cons_eq_ok h
    -- An operand that is expected completes a sum.
    have operand : ∀ (f : Frame) (a : Phrase .atom), a.kinds = [k] → balance fs.length ys = some 0 →
        alternates false ks = true → IsSentence (Frame.opened fs ++ (f.kinds ++ k :: ks)) := by
      intro f a ha hb halt
      obtain ⟨s, hs⟩ := f.fill a
      have := (ih hys fs hb).2 s halt
      rwa [hs, ha, List.append_assoc] at this
    cases k with
    | num n =>
      cases hx
      exact ⟨fun f ha => operand f (.num n) rfl hb ha, fun s ha => (by cases ha)⟩
    | ident y =>
      rcases kind_cases hx with ⟨v, rfl, -⟩ | ⟨o, -, hk⟩ | ⟨-, hk⟩ | ⟨-, hk⟩
      · exact ⟨fun f ha => operand f (.name y) rfl hb ha, fun s ha => (by cases ha)⟩
      all_goals cases hk
    | op o =>
      cases hx
      constructor
      · intro f ha
        simp only [alternates, Bool.not_true, Bool.false_or, Bool.and_eq_true] at ha
        obtain ⟨s, rfl⟩ := sign_of_operator ha.1
        have := (ih hys fs hb).1 ⟨f.left, f.signs ++ [s]⟩ ha.2
        rwa [Frame.kinds_sign, List.append_assoc] at this
      · intro s ha
        simp only [alternates, Bool.not_false, Bool.true_or, Bool.true_and] at ha
        have := (ih hys fs hb).1 ⟨some (s, o), []⟩ ha
        simpa [Frame.kinds, signKinds] using this
    | opening =>
      cases hx
      refine ⟨?_, fun s ha => (by cases ha)⟩
      intro f ha
      have := (ih hys (f :: fs) hb).1 .start ha
      simpa [Frame.opened, Frame.kinds, Frame.start, signKinds] using this
    | closing =>
      cases hx
      refine ⟨fun f ha => (by cases ha), ?_⟩
      intro s ha
      cases fs with
      | nil => cases hb
      | cons f fs =>
        obtain ⟨s', hs⟩ := f.fill (.group s)
        have := (ih hys fs hb).2 s' ha
        rw [hs] at this
        simpa [Frame.opened, Phrase.kinds] using this
    | equals => cases hx

theorem sentence_of_alternates {ks : List Kind} {xs : List Symbol} (h : symbolsOf vars ks = .ok xs) (hb : Balanced xs)
    (ha : alternates true ks = true) : IsSentence ks :=
  (sentence_of_rest h [] hb).1 .start ha

/-! ## Lines with a value -/

theorem juxtaposed_of_sentence {ks : List Kind} (h : IsSentence ks) : juxtaposed ks = false := by
  obtain ⟨s, rfl⟩ := h
  exact juxtaposed_of_alternates (alternates_sentence s)

theorem sentence_iff_of_value {ks : List Kind} {v : Int} (h : computeKinds limits vars ks = .ok v) :
    IsSentence ks ↔ juxtaposed ks = false := by
  obtain ⟨xs, hx, hv⟩ := (compute_kinds_eq_ok_iff limits vars).mp h
  constructor
  · exact juxtaposed_of_sentence
  · intro hj
    exact sentence_of_alternates hx (Formula.balanced_of_value hv) (alternates_of_value hx hv hj)

/-- A line that has a value is an expression of the grammar, unless two operands stand in
    it with no operator between them. -/
theorem compute_sentence_iff {line : String} {v : Int} :
    ((enter limits vars line).1 = .value v ↔ compute limits vars line = .ok v) ∧
      (compute limits vars line = .ok v →
        ∃ ts, (Token.Lexer.ofList (Text.trim line.toList)).tokens = .ok ts ∧
          (IsSentence (ts.map (·.kind)) ↔ juxtaposed (ts.map (·.kind)) = false)) := by
  refine ⟨enter_value_iff, ?_⟩
  intro h
  obtain ⟨-, ks, hk, hv⟩ := compute_eq_ok_iff.mp h
  obtain ⟨-, ts, ht, hp⟩ := kinds_of_eq_ok_iff.mp hk
  obtain ⟨-, -, rfl⟩ := passing_eq_ok_iff.mp hp
  exact ⟨ts, ht, sentence_iff_of_value hv⟩

theorem compute_sentence_iff_sum : ∃ ts, (Token.Lexer.ofList (Text.trim "1 + 2".toList)).tokens = .ok ts ∧
    (IsSentence (ts.map (·.kind)) ↔ juxtaposed (ts.map (·.kind)) = false) :=
  compute_sentence_iff.2 (eq_ok_of_to_option (by decide +kernel) : compute {} .empty "1 + 2" = .ok 3)

/-- Operands in the order of the code have a value and are no expression. -/
theorem compute_postorder : compute {} .empty "(2)(3)*" = .ok 6 ∧ (enter {} .empty "(2)(3)*").1 = .value 6 ∧
    ∃ ts, (Token.Lexer.ofList (Text.trim "(2)(3)*".toList)).tokens = .ok ts ∧ ¬IsSentence (ts.map (·.kind)) := by
  have ht : (Token.Lexer.ofList (Text.trim "(2)(3)*".toList)).tokens = .ok
      [⟨.opening, 0, 1⟩, ⟨.num 2, 1, 1⟩, ⟨.closing, 2, 1⟩, ⟨.opening, 3, 1⟩, ⟨.num 3, 4, 1⟩, ⟨.closing, 5, 1⟩,
        ⟨.op .mul, 6, 1⟩] := eq_ok_of_to_option (by decide +kernel)
  refine ⟨eq_ok_of_to_option (by decide +kernel), by decide +kernel, _, ht, ?_⟩
  intro h
  cases juxtaposed_of_sentence h

end Reckon.Grammar
