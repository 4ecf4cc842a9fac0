/-!
# Sets of characters

A property of characters is given by the sorted ranges of the code points that have it.
-/

namespace Metaheuristics.Text

/-- **A set of code points** as a list of ranges, ends included. -/
abbrev Ranges := List (Nat × Nat)

/-- Whether the code point of a character lies in one of the ranges. -/
def Ranges.contains (ranges : Ranges) (c : Char) : Bool :=
  ranges.any fun (first, last) => first ≤ c.toNat && c.toNat ≤ last

end Metaheuristics.Text
