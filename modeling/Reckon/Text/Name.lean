/-
  Reckon.Text.Name — the names that variables may have.

  One or more ASCII letters, upper and lower case told apart.
-/

namespace Reckon.Text

/-- One or more letters. -/
def isName (cs : List Char) : Bool :=
  !cs.isEmpty && cs.all Char.isAlpha

/-- Letters and digits with at least one of each, like `a1` or `2b`: not a name, though
    it may have been meant as one. -/
def isMixedName (cs : List Char) : Bool :=
  cs.all Char.isAlphanum && cs.any Char.isAlpha && cs.any Char.isDigit

end Reckon.Text
