/-
  Reckon.Proofs.Token.Renaming — the tokens of a text under other names.

  A name may get longer or shorter, so the tokens after it move. But each stays where the
  one before it stops, or after that if it stood after that (`Renamed`), and no check asks
  for more: a renamed text passes for an expression if the text does, and then the names
  among its kinds are renamed (`kinds_of_text`).
-/

import Reckon.Proofs.Text.Renaming
import Reckon.Proofs.Token.Ends

namespace Reckon

open Token (Kind LexError)
open Token.Lexer (tokens)

namespace Renaming

variable (r : Renaming)

def kind : Kind → Kind
  | .ident s => .ident (r.name s)
  | k => k

/-- The second tokens are the first under other names. Nothing is between the place where
    the first token may begin and the token itself, or something is in both. -/
inductive Renamed : Nat → Nat → List Token → List Token → Prop
  | nil (p q : Nat) : Renamed p q [] []
  | cons {p q : Nat} {t u : Token} {ts us : List Token} : u.kind = r.kind t.kind →
      (t.index = p ∧ u.index = q ∨ p < t.index ∧ q < u.index) → Renamed t.stop u.stop ts us →
      Renamed p q (t :: ts) (u :: us)

/-- Two texts read as such tokens, or neither can be read. -/
inductive ReadAlike (p q : Nat) : Except LexError (List Token) → Except LexError (List Token) → Prop
  | tokens {ts us : List Token} : r.Renamed p q ts us → ReadAlike p q (.ok ts) (.ok us)
  | errors (e e' : LexError) : ReadAlike p q (.error e) (.error e')

variable {r}

/-! ## Reading -/

theorem ReadAlike.cons {p q : Nat} {t u : Token} {a b : Except LexError (List Token)}
    (h : r.ReadAlike t.stop u.stop a b) (hkind : u.kind = r.kind t.kind) (ht : t.index = p) (hu : u.index = q) :
    r.ReadAlike p q (a.map (t :: ·)) (b.map (u :: ·)) := by
  cases h with
  | tokens h => exact .tokens (.cons hkind (Or.inl ⟨ht, hu⟩) h)
  | errors e e' => exact .errors e e'

/-- A gap comes before both. -/
theorem ReadAlike.gap {p q : Nat} {a b : Except LexError (List Token)} (h : r.ReadAlike (p + 1) (q + 1) a b) :
    r.ReadAlike p q a b := by
  cases h with
  | tokens h =>
    cases h with
    | nil => exact .tokens (.nil p q)
    | cons hkind hplace hrest =>
      refine .tokens (.cons hkind (Or.inr ?_) hrest)
      omega
  | errors e e' => exact .errors e e'

variable (r)

theorem kind_of_symbol {c : Char} {k : Kind} (h : Kind.ofChar? c = some k) : r.kind k = k := by
  rcases Token.symbol_cases h with ⟨o, rfl, -⟩ | ⟨rfl, -⟩ | ⟨rfl, -⟩ | ⟨rfl, -⟩ <;> rfl

theorem head_text {cs : List Char} (hcs : ∀ c ∈ cs.head?, c.isAlpha = false) :
    ∀ c ∈ (r.text cs).head?, c.isAlpha = false := by
  cases cs with
  | nil => exact hcs
  | cons c cs =>
    rw [text_cons (hcs c rfl)]
    exact hcs

/-- A digit that comes first stood first. -/
theorem head_text_digit {cs : List Char} (hcs : ∀ c ∈ cs.head?, c.isDigit = false) :
    ∀ c ∈ (r.text cs).head?, c.isDigit = false := by
  intro c hc
  rcases Text.map_names_head (fun _ hw => (r.word_letters hw).1) hc with h | ⟨w, hw, h⟩
  · exact hcs c h
  · exact Text.digit_of_letter ((r.word_letters hw).2 c (List.mem_of_head? h))

theorem tokens_text (cs : List Char) (p q : Nat) : r.ReadAlike p q (tokens ⟨cs, p⟩) (tokens ⟨r.text cs, q⟩) := by
  induction cs using Token.Lexer.reading_induction generalizing p q with
  | nil =>
    rw [text_nil, Token.Lexer.tokens_nil, Token.Lexer.tokens_nil]
    exact .tokens (.nil p q)
  | gap c cs hc ih =>
    rw [text_cons (Token.gap_plain hc).2, Token.Lexer.tokens_gap hc, Token.Lexer.tokens_gap hc]
    exact (ih (p + 1) (q + 1)).gap
  | symbol c k cs hk ih =>
    rw [text_cons (Token.symbol_plain hk).2.2, Token.Lexer.tokens_symbol hk,
      Token.Lexer.tokens_symbol hk]
    exact (ih (p + 1) (q + 1)).cons (r.kind_of_symbol hk).symm rfl rfl
  | digits w cs hne hw hcs ih =>
    rw [text_plain fun c hc => Text.letter_of_digit (hw c hc), Token.Lexer.tokens_digits hne hw hcs,
      Token.Lexer.tokens_digits hne hw (r.head_text_digit hcs)]
    exact (ih (p + w.length) (q + w.length)).cons rfl rfl rfl
  | letters w cs hne hw hcs ih =>
    obtain ⟨hne', hw'⟩ := r.word_letters ⟨hne, hw⟩
    rw [text_letters ⟨hne, hw⟩ hcs, Token.Lexer.tokens_letters hne hw hcs,
      Token.Lexer.tokens_letters hne' hw' (r.head_text hcs)]
    refine (ih (p + w.length) (q + (r.word w).length)).cons ?_ rfl rfl
    rw [word, String.ofList_toList]
    rfl
  | unknown c cs hc =>
    have ha : c.isAlpha = false := by
      simp only [Token.isUnknown, Bool.and_eq_true, Bool.not_eq_true'] at hc
      exact hc.2
    rw [text_cons ha, Token.Lexer.tokens_unknown hc, Token.Lexer.tokens_unknown hc]
    exact .errors _ _

/-! ## Passing the checks -/

variable {r}

theorem Renamed.kinds {p q : Nat} {ts us : List Token} (h : r.Renamed p q ts us) :
    us.map (·.kind) = (ts.map (·.kind)).map r.kind := by
  induction h with
  | nil => rfl
  | cons hkind _ _ ih => rw [List.map_cons, List.map_cons, List.map_cons, hkind, ih]

theorem Renamed.clash {p q : Nat} {ts us : List Token} (h : r.Renamed p q ts us) :
    Line.anyClash us = Line.anyClash ts := by
  induction h with
  | nil => rfl
  | @cons p q t u ts us hkind _ hrest ih =>
    rw [any_clash_cons, any_clash_cons, ih]
    congr 1
    cases hrest with
    | nil => rfl
    | @cons _ _ t' u' ts us hkind' hplace hrest =>
      have htouch : (u.stop == u'.index) = (t.stop == t'.index) := by
        rw [Bool.eq_iff_iff, beq_iff_eq, beq_iff_eq]
        omega
      show Line.clash u u' = Line.clash t t'
      simp only [Line.clash, hkind, hkind', htouch]
      cases t.kind <;> cases t'.kind <;> rfl

variable (r)

/-- What looks at no name is the same for kinds under other names. -/
theorem count_renamed {p : Kind → Bool} (hp : ∀ k, p (r.kind k) = p k) (ks : List Kind) :
    (ks.map r.kind).countP p = ks.countP p := by
  rw [List.countP_map]
  refine List.countP_congr ?_
  intro k _
  rw [Function.comp, hp]

theorem any_renamed {p : Kind → Bool} (hp : ∀ k, p (r.kind k) = p k) (o : Option Kind) :
    (o.map r.kind).any p = o.any p := by
  cases o with
  | none => rfl
  | some k => exact hp k

@[simp] theorem dangle_renamed (ks : List Kind) : kindsDangle (ks.map r.kind) = kindsDangle ks := by
  have first : ∀ k, kindDanglesFirst (r.kind k) = kindDanglesFirst k := by
    intro k
    cases k <;> rfl
  have last : ∀ k, kindDanglesLast (r.kind k) = kindDanglesLast k := by
    intro k
    cases k <;> rfl
  rw [kindsDangle, kindsDangle, List.head?_map, List.getLast?_map, r.any_renamed first, r.any_renamed last]

theorem passing_renamed {ts us : List Token} {p q : Nat} (h : r.Renamed p q ts us) :
    passing us = (passing ts).map (List.map r.kind) := by
  have opening : ∀ k, decide (r.kind k = .opening) = decide (k = .opening) := by
    intro k
    cases k <;> rfl
  have closing : ∀ k, decide (r.kind k = .closing) = decide (k = .closing) := by
    intro k
    cases k <;> rfl
  rw [passing_eq, passing_eq, h.clash, h.kinds, r.count_renamed opening, r.count_renamed closing]
  split
  · rfl
  · split <;> rfl

/-- A renamed text passes for an expression, or is refused, as the text is. -/
theorem kinds_of_text {cs : List Char} (h : Text.Trimmed cs) (h' : Text.Trimmed (r.text cs)) :
    kindsOf (r.text cs) = (kindsOf cs).map (List.map r.kind) := by
  have halike := r.tokens_text cs 0 0
  generalize ha : tokens ⟨cs, 0⟩ = a at halike
  generalize hb : tokens ⟨r.text cs, 0⟩ = b at halike
  cases halike with
  | errors e e' =>
    rw [kinds_of_unreadable ha, kinds_of_unreadable hb]
    rfl
  | tokens hts =>
    rw [kinds_of_trimmed ha h, kinds_of_trimmed hb h', hts.kinds, r.dangle_renamed, r.passing_renamed hts]
    split <;> rfl

end Renaming

end Reckon
