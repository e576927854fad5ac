/-
  Reckon.Proofs.Session.Footprint — what a line can read, and what it can bind.

  A line reads no names but those that occur in it, and binds none but these: whatever
  else the variables hold, it has the same answer and the same binding
  (`enter_footprint`). From this (`session_footprint`):
  (1) two lines neither of which is carried out as an assignment to a name in the other
      can be exchanged;
  (2) sessions from variables that agree on the names in the lines have the same answers;
  (3) a name that occurs in no line keeps its value.
-/

import Reckon.Proofs.Line.Contents
import Reckon.Proofs.Session.History

namespace Reckon

open Token (Kind)

/-- The name stands in the line, with no further letter on either side. -/
def Occurs (name line : String) : Prop := Text.NameIn name.toList line.toList

/-- The line is carried out as an assignment to the name. -/
def Assigns (limits : Limits) (vars : Variables) (line name : String) : Prop :=
  ∃ rhs, (stepOf limits vars line).assignment? = some (name, rhs)

/-- The same values for the names that occur in the line. -/
def Agree (line : String) (u v : Variables) : Prop := ∀ name, Occurs name line → v.get? name = u.get? name

/-- The variables after a binding, if there is one. -/
def Variables.put (vars : Variables) : Option (String × Int) → Variables
  | none => vars
  | some (name, value) => vars.insert name value

/-! ## The names that a line holds -/

theorem occurs_of_expression {line : String} {ts : List Token} (h : Line.ofString line = .ok (.expression ts))
    {name : String} (hk : Kind.ident name ∈ ts.map (·.kind)) : Occurs name line := by
  obtain ⟨-, hread⟩ := expression_of_string h
  exact ((ident_mem_iff (Token.Lexer.laid_of_tokens (tokens_of_read hread))).mp hk).of_trim

theorem occurs_of_assignment {line lhs rhs : String} (h : Line.ofString line = .ok (.assignment lhs rhs)) :
    Occurs lhs line ∧ (isVariableName rhs = true → Occurs rhs line) := by
  obtain ⟨a, b, hline, ha, hb, hlhs, -⟩ := of_string_assignment_iff.mp h
  have side : ∀ {name : String} {cs : List Char}, isVariableName name = true → Text.trim cs = name.toList →
      Text.NameIn name.toList cs := by
    intro name cs hname hcs
    refine Text.NameIn.of_trim ?_
    rw [hcs]
    exact .alone (Text.is_name_iff.mp hname)
  have hequals : Text.Severed a ('=' :: b) := Text.severed_of_head (by simp) a
  have hrest : Text.Severed (a ++ ['=']) b := Text.severed_of_last (by simp) b
  constructor
  · rw [Occurs, hline]
    exact (side hlhs ha).append_right hequals
  · intro hrhs
    rw [Occurs, hline, List.append_cons]
    exact (side hrhs hb).append_left hrest

/-! ## One line -/

theorem agree_refl (line : String) (vars : Variables) : Agree line vars vars := fun _ _ => rfl

theorem source_agree {line lhs rhs : String} (h : Line.ofString line = .ok (.assignment lhs rhs)) {u v : Variables}
    (hv : Agree line u v) : v.source rhs = u.source rhs := by
  unfold Variables.source
  by_cases hn : isVariableName rhs = true
  · rw [if_pos hn, if_pos hn, hv rhs ((occurs_of_assignment h).2 hn)]
  · rw [if_neg hn, if_neg hn]

theorem compute_tokens_agree {line : String} {ts : List Token} (h : Line.ofString line = .ok (.expression ts))
    {u v : Variables} (hv : Agree line u v) (limits : Limits) :
    computeTokens limits v ts = computeTokens limits u ts := by
  have hsymbol : ∀ k ∈ ts.map (·.kind), Formula.symbolOf v (id k) = Formula.symbolOf u k := by
    intro k hk
    cases k with
    | ident name => simp only [id, Formula.symbolOf, hv name (occurs_of_expression h hk)]
    | num | op | opening | closing | equals => rfl
  have hmap := compute_kinds_map limits u id hsymbol
  rw [List.map_id] at hmap
  rw [compute_tokens_eq, compute_tokens_eq, hmap]

/-- A line has one answer and at most one binding, of a name that occurs in it, for all
    variables that agree on the names in it. -/
theorem enter_footprint (limits : Limits) (vars : Variables) (line : String) :
    ∃ outcome binding,
      (∀ name value, binding = some (name, value) → Assigns limits vars line name ∧ Occurs name line) ∧
      ∀ v, Agree line vars v → enter limits v line = (outcome, v.put binding) := by
  have unbound : ∀ outcome, (∀ v, Agree line vars v → enter limits v line = (outcome, v)) →
      ∃ outcome binding,
        (∀ name value, binding = some (name, value) → Assigns limits vars line name ∧ Occurs name line) ∧
        ∀ v, Agree line vars v → enter limits v line = (outcome, v.put binding) := by
    intro outcome h
    exact ⟨outcome, none, by simp, h⟩
  cases hl : Line.ofString line with
  | error fault => exact unbound (.refused fault) fun v _ => by simp only [enter, hl]
  | ok l =>
    cases l with
    | blank => exact unbound .quiet fun v _ => by simp only [enter, hl]
    | assignment lhs rhs =>
      obtain ⟨-, -, -, -, -, hlhs, -⟩ := of_string_assignment_iff.mp hl
      cases hs : vars.source rhs with
      | error fault =>
        refine unbound (.refused fault) ?_
        intro v hv
        simp only [enter, hl, Variables.assign_of_name hlhs, source_agree hl hv, hs, Except.map]
      | ok value =>
        have henter : ∀ v, Agree line vars v → enter limits v line = (.quiet, v.put (some (lhs, value))) := by
          intro v hv
          simp only [enter, hl, Variables.assign_of_name hlhs, source_agree hl hv, hs, Except.map, Variables.put]
        refine ⟨.quiet, some (lhs, value), ?_, henter⟩
        rintro name w ⟨rfl, rfl⟩
        refine ⟨⟨rhs, ?_⟩, (occurs_of_assignment hl).1⟩
        simp only [Entered.assignment?, stepOf, henter vars (agree_refl line vars), hl]
    | expression ts =>
      cases hc : computeTokens limits vars ts with
      | error fault =>
        refine unbound (.refused fault) ?_
        intro v hv
        simp only [enter, hl, compute_tokens_agree hl hv, hc]
      | ok value =>
        refine unbound (.value value) ?_
        intro v hv
        simp only [enter, hl, compute_tokens_agree hl hv, hc]

/-! ## Two lines -/

theorem get_put {binding : Option (String × Int)} {name : String}
    (h : ∀ other value, binding = some (other, value) → other ≠ name) (vars : Variables) :
    (vars.put binding).get? name = vars.get? name := by
  cases binding with
  | none => rfl
  | some b => exact Variables.get_insert_of_ne vars (Ne.symm (h b.1 b.2 rfl)) b.2

theorem agree_put {binding : Option (String × Int)} {line : String}
    (h : ∀ name value, binding = some (name, value) → ¬Occurs name line) (vars : Variables) :
    Agree line vars (vars.put binding) := by
  intro name hname
  refine get_put ?_ vars
  rintro other value hother rfl
  exact h other value hother hname

theorem put_comm {m n : Option (String × Int)} (h : ∀ a v b w, m = some (a, v) → n = some (b, w) → a ≠ b)
    (vars : Variables) : (vars.put m).put n = (vars.put n).put m := by
  cases m with
  | none => rfl
  | some m =>
    cases n with
    | none => rfl
    | some n => exact Variables.insert_comm (h m.1 m.2 n.1 n.2 rfl rfl) vars m.2 n.2

/-- Lines that bind no name of each other come to the same in either order. -/
theorem enter_swap {limits : Limits} {vars : Variables} {a b : String}
    (hab : ∀ name, Assigns limits vars a name → ¬Occurs name b)
    (hba : ∀ name, Assigns limits vars b name → ¬Occurs name a) :
    (enter limits (enter limits vars b).2 a).1 = (enter limits vars a).1 ∧
      (enter limits (enter limits vars a).2 b).1 = (enter limits vars b).1 ∧
      (enter limits (enter limits vars a).2 b).2 = (enter limits (enter limits vars b).2 a).2 := by
  obtain ⟨oa, m, hm, ha⟩ := enter_footprint limits vars a
  obtain ⟨ob, n, hn, hb⟩ := enter_footprint limits vars b
  have hagree_a : Agree a vars (vars.put n) := agree_put (fun name v h => hba name (hn name v h).1) vars
  have hagree_b : Agree b vars (vars.put m) := agree_put (fun name v h => hab name (hm name v h).1) vars
  have hdistinct : ∀ x v y w, m = some (x, v) → n = some (y, w) → x ≠ y := by
    rintro x v y w hx hy rfl
    exact hba x (hn x w hy).1 (hm x v hx).2
  rw [ha vars (agree_refl a vars), hb vars (agree_refl b vars), ha _ hagree_a, hb _ hagree_b]
  exact ⟨rfl, rfl, put_comm hdistinct vars⟩

/-! ## Sessions -/

variable (limits : Limits)

/-- The variables agree on the names in some lines. -/
def AgreeOn (lines : List String) (u v : Variables) : Prop := ∀ line ∈ lines, Agree line u v

theorem enter_agree {lines : List String} {u v : Variables} (h : AgreeOn lines u v) {line : String}
    (hl : line ∈ lines) :
    AgreeOn lines (enter limits u line).2 (enter limits v line).2 ∧
      (enter limits u line).1 = (enter limits v line).1 := by
  obtain ⟨outcome, binding, -, henter⟩ := enter_footprint limits u line
  rw [henter u (agree_refl line u), henter v (h line hl)]
  refine ⟨?_, rfl⟩
  intro other hother name hname
  cases binding with
  | none => exact h other hother name hname
  | some b => simp only [Variables.put, Variables.get_insert, h other hother name hname]

theorem get_enter {line name : String} (h : ¬Occurs name line) (vars : Variables) :
    (enter limits vars line).2.get? name = vars.get? name := by
  obtain ⟨outcome, binding, hbinding, henter⟩ := enter_footprint limits vars line
  rw [henter vars (agree_refl line vars)]
  refine get_put ?_ vars
  rintro other value hother rfl
  exact h (hbinding other value hother).2

/-- Lines that bind no name of each other can be exchanged at the head of a session; the
    names in the lines decide all answers of a session; no other name changes. -/
theorem session_footprint :
    (∀ vars a b lines, (∀ name, Assigns limits vars a name → ¬Occurs name b) →
        (∀ name, Assigns limits vars b name → ¬Occurs name a) →
        ∃ ea eb fb fa rest, transcript (enter limits) vars (a :: b :: lines) = ea :: eb :: rest ∧
          transcript (enter limits) vars (b :: a :: lines) = fb :: fa :: rest ∧
          ea.answer = fa.answer ∧ eb.answer = fb.answer ∧ eb.after = fa.after) ∧
      (∀ u v lines, AgreeOn lines u v → List.Forall₂ (fun e d => e.answer = d.answer)
        (transcript (enter limits) u lines) (transcript (enter limits) v lines)) ∧
      ∀ vars lines name, (∀ line ∈ lines, ¬Occurs name line) →
        ∀ e ∈ transcript (enter limits) vars lines, e.after.get? name = vars.get? name := by
  refine ⟨?_, ?_, ?_⟩
  · intro vars a b lines hab hba
    obtain ⟨ha, hb, hvars⟩ := enter_swap hab hba
    have hrest : transcript (enter limits) vars (b :: a :: lines) =
        stepOf limits vars b :: stepOf limits (enter limits vars b).2 a ::
          transcript (enter limits) (enter limits (enter limits vars a).2 b).2 lines := by
      rw [hvars]
      rfl
    exact ⟨stepOf limits vars a, stepOf limits (enter limits vars a).2 b, _, _, _, rfl, hrest, ha.symm, hb, hvars⟩
  · intro u v lines h
    have hlines : List.Forall₂ (fun i j => i = j ∧ i ∈ lines) lines lines :=
      List.forall₂_same.mpr fun i hi => ⟨rfl, hi⟩
    refine (transcript_related ?_ h hlines).imp fun e d he => he.2
    rintro s t i _ ⟨rfl, hi⟩ hst
    exact enter_agree limits hst hi
  · intro vars lines name h e he
    have hstep : ∀ s, ∀ line ∈ lines, s.get? name = vars.get? name →
        (enter limits s line).2.get? name = vars.get? name := by
      intro s line hline hs
      rw [get_enter limits (h line hline), hs]
    exact (transcript_inv_on hstep rfl he).2

/-- Two lines that read the same name and bind others, before a line that reads both. -/
theorem session_footprint_copies :
    let n := Variables.empty.insert "n" 5
    let m := n.insert "k" 1
    (∃ ea eb fb fa rest, transcript (enter {}) n ["x = n", "y = n", "2 * x - y"] = ea :: eb :: rest ∧
      transcript (enter {}) n ["y = n", "x = n", "2 * x - y"] = fb :: fa :: rest ∧
      ea.answer = fa.answer ∧ eb.answer = fb.answer ∧ eb.after = fa.after) ∧
    List.Forall₂ (fun e d => e.answer = d.answer) (transcript (enter {}) n ["x = n", "x / 0"])
      (transcript (enter {}) m ["x = n", "x / 0"]) ∧
    ∀ e ∈ transcript (enter {}) m ["x = n", "x / 0"], e.after.get? "k" = some 1 := by
  intro n m
  obtain ⟨hswap, hagree, hkeep⟩ := session_footprint {}
  -- A name does not occur in a line that lacks its letters.
  have lacks : ∀ {name line : String}, (name.toList.any fun c => !line.toList.contains c) = true →
      ¬Occurs name line := by
    intro name line h hname
    obtain ⟨c, hc, hn⟩ := List.any_eq_true.mp h
    simp [hname.mem hc] at hn
  have assigns : ∀ {line name : String} (lhs rhs : String), (stepOf {} n line).assignment? = some (lhs, rhs) →
      Assigns {} n line name → name = lhs := by
    rintro line name lhs rhs h ⟨r, hr⟩
    rw [h] at hr
    cases hr
    rfl
  refine ⟨hswap n "x = n" "y = n" ["2 * x - y"] ?_ ?_, hagree n m _ ?_, hkeep m _ "k" ?_⟩
  · intro name hname
    rw [assigns "x" "n" (by decide +kernel) hname]
    exact lacks (by decide)
  · intro name hname
    rw [assigns "y" "n" (by decide +kernel) hname]
    exact lacks (by decide)
  · intro line hline name hname
    refine Variables.get_insert_of_ne n ?_ 1
    rintro rfl
    simp only [List.mem_cons, List.not_mem_nil, or_false] at hline
    rcases hline with rfl | rfl
    · exact lacks (by decide) hname
    · exact lacks (by decide) hname
  · intro line hline
    simp only [List.mem_cons, List.not_mem_nil, or_false] at hline
    rcases hline with rfl | rfl
    · exact lacks (by decide)
    · exact lacks (by decide)

end Reckon
