import ScopeActions.Text.Ranges
/-!
# Blank characters

The White_Space property of Unicode. A text of blank characters only counts as empty.
-/

namespace ScopeActions.Text

/-- The ranges of the White_Space property. -/
def blankRanges : List (Nat × Nat) :=
  [(0x9, 0xd), (0x20, 0x20), (0x85, 0x85), (0xa0, 0xa0), (0x1680, 0x1680), (0x2000, 0x200a),
   (0x2028, 0x2029), (0x202f, 0x202f), (0x205f, 0x205f), (0x3000, 0x3000)]

/-- A character with the White_Space property. -/
def isBlank (c : Char) : Bool :=
  inRanges blankRanges c.toNat

/-- A text that has no character but blank ones. -/
def isBlankText (s : String) : Bool :=
  s.toList.all isBlank

example : isBlank '\t' ∧ isBlank '\u00a0' ∧ ¬ isBlank '\u200b' := by decide

end ScopeActions.Text
