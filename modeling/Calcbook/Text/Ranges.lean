/-! Sets of characters given by ranges of code points, the form in which the properties of Unicode are
    tabled. A table lists its ranges in ascending order, both ends included. -/

namespace Calcbook.Text

/-- A set of characters as closed ranges of code points. -/
abbrev Ranges := List (Nat × Nat)

/-- A character is in the set when its code point lies in one of the ranges. -/
def Ranges.contains (ranges : Ranges) (c : Char) : Bool :=
  ranges.any fun r => r.1 ≤ c.toNat && c.toNat ≤ r.2

end Calcbook.Text
