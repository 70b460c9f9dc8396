/-!
# Character ranges

A property of characters is a list of inclusive ranges of code points, in increasing order.
-/

namespace ScopeActions.Text

/-- The code point lies in one of the ranges. -/
def inRanges (ranges : List (Nat × Nat)) (n : Nat) : Bool :=
  ranges.any fun r => r.1 ≤ n && n ≤ r.2

end ScopeActions.Text
