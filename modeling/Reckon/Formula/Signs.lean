/-
  Reckon.Formula.Signs — leaving only binary operators in a formula.

  A run of `+` and `-` counts as one sign, `-` if it has an odd number of minuses:
  `5 - - 2` is `5 + 2`. The minuses are counted in 32 bits, which is enough for runs of fewer
  than `2 ^ 31` of them (`signOf`). A sign with no operand on its left (at the start, after
  `(`, after another operator) is unary and is applied at once:
  - before a number it goes into the number;
  - `+` before `(` is dropped;
  - `-` before `(` opens a group of its own, `-(x)` becoming `(0 - (x))`.

  The formula is read once, from the left. To know where such a group of its own ends,
  the reading keeps the depth of parentheses and, for each group still open, the depth
  of the parentheses that it negates.
-/

import Reckon.Formula.Symbol

namespace Reckon.Formula

/-! ## Runs of signs -/

/-- What a sign adds to the count of minuses in its run. -/
def minus (o : Operator) : Int32 := if o = .sub then 1 else 0

/-- The sign that a run amounts to by its count of minuses. The count has 32 bits and wraps
    round; below zero the remainder of an odd count is -1, and the sign is a plus. -/
def signOf (minuses : Int32) : Operator := if minuses % 2 = 1 then .sub else .add

/-- What is written for a run that was counted, if there was one. -/
def ofRun : Option Int32 → List Symbol
  | none => []
  | some minuses => [.op (signOf minuses)]

/-- Every run of signs as the one sign it amounts to, after a run that was counted so far. -/
def foldAfter (run : Option Int32) : List Symbol → List Symbol
  | [] => ofRun run
  | .op o :: rest =>
    if o.isSign then foldAfter (some (run.getD 0 + minus o)) rest
    else ofRun run ++ .op o :: foldAfter none rest
  | x :: rest => ofRun run ++ x :: foldAfter none rest

/-- Every run of signs as the one sign it amounts to. -/
def foldRuns (symbols : List Symbol) : List Symbol := foldAfter none symbols

/-! ## Unary signs -/

/-- A formula partly read. -/
structure Reading where
  /-- What was written so far, the last symbol first. -/
  written : List Symbol
  /-- How many parentheses are open in `written`; one that closes nothing is not counted. -/
  depth : Nat
  /-- The depths at which a negated group ends, the innermost first. -/
  pending : List Nat
  /-- What is still to be read. -/
  rest : List Symbol
  deriving DecidableEq

namespace Reading

def start (symbols : List Symbol) : Reading := ⟨[], 0, [], symbols⟩

/-- Whether a sign read next would have no operand on its left. -/
def expectsOperand (r : Reading) : Bool :=
  match r.written with
  | [] | .opening :: _ | .op _ :: _ => true
  | .num _ :: _ | .closing :: _ => false

/-- Applies a unary sign to what follows it. A sign before neither a number nor a group
    is kept. -/
def applySign (r : Reading) (o : Operator) : List Symbol → Reading
  | .num v :: rest =>
    { r with written := .num (if o = .sub then -v else v) :: r.written, rest := rest }
  | .opening :: rest =>
    if o = .sub then
      { written := .op .sub :: .num 0 :: .opening :: r.written
        depth := r.depth + 1
        pending := (r.depth + 2) :: r.pending
        rest := .opening :: rest }
    else { r with rest := .opening :: rest }
  | rest => { r with written := .op o :: r.written, rest := rest }

/-- Writes a closing parenthesis, and another one if it ends a negated group. -/
def close (r : Reading) (rest : List Symbol) : Reading :=
  if r.pending.head? = some r.depth then
    { written := .closing :: .closing :: r.written
      depth := r.depth - 1 - 1
      pending := r.pending.tail
      rest := rest }
  else { r with written := .closing :: r.written, depth := r.depth - 1, rest := rest }

/-- Reads the next symbol, or a unary sign together with its number. -/
def next? (r : Reading) : Option Reading :=
  match r.rest with
  | [] => none
  | .op o :: rest =>
    if o.isSign && r.expectsOperand then some (r.applySign o rest)
    else some { r with written := .op o :: r.written, rest := rest }
  | .opening :: rest =>
    some { r with written := .opening :: r.written, depth := r.depth + 1, rest := rest }
  | .closing :: rest => some (r.close rest)
  | .num v :: rest => some { r with written := .num v :: r.written, rest := rest }

theorem length_apply_sign_le (r : Reading) (o : Operator) (rest : List Symbol) :
    (r.applySign o rest).rest.length ≤ rest.length := by
  unfold applySign
  split
  · simp
  · split <;> simp
  · simp

/-- Every step reads something. -/
theorem length_next_lt {r r' : Reading} (h : r.next? = some r') :
    r'.rest.length < r.rest.length := by
  unfold next? at h
  split at h
  · cases h
  · next o rest hr =>
    rw [hr, List.length_cons]
    split at h
    · cases h; exact Nat.lt_succ_of_le (length_apply_sign_le r o rest)
    · cases h; exact Nat.lt_succ_self _
  · next rest hr => cases h; simp [hr]
  · next rest hr =>
    cases h
    unfold close
    split <;> simp [hr]
  · next v rest hr => cases h; simp [hr]

/-- The formula read to its end. -/
def finish (r : Reading) : Reading :=
  match _ : r.next? with
  | none => r
  | some r' => r'.finish
termination_by r.rest.length
decreasing_by exact length_next_lt ‹_›

end Reading

/-- A formula with runs of signs folded and unary signs applied. -/
def settleSigns (symbols : List Symbol) : List Symbol :=
  (Reading.start (foldRuns symbols)).finish.written.reverse

end Reckon.Formula
