/-
  Reckon.Stack — the stack that conversion and evaluation work on.

  A list with the item pushed last at its head.
-/

namespace Reckon

abbrev Stack (α : Type) := List α

namespace Stack

variable {α : Type}

def empty : Stack α := []

def push (s : Stack α) (a : α) : Stack α := a :: s

/-- The item pushed last and the stack below it. -/
def pop? : Stack α → Option (α × Stack α)
  | [] => none
  | a :: s => some (a, s)

/-- The item that would be popped next. -/
def peek? (s : Stack α) : Option α := s.head?

def size (s : Stack α) : Nat := s.length

@[simp] theorem pop_push (s : Stack α) (a : α) : (s.push a).pop? = some (a, s) := rfl

theorem peek_eq_pop (s : Stack α) : s.peek? = s.pop?.map Prod.fst := by
  cases s <;> rfl

end Stack

end Reckon
