import ScopeActions.Text.Blank
import ScopeActions.Text.Digit
import ScopeActions.Text.Fold
import ScopeActions.Text.Word

/-!
# Regular expressions

Patterns as trees. `CharClass` is a set of characters, and `Regex` what a pattern says about a stretch of
text. Greed is not part of it: whether a text matches does not depend on it.
-/

namespace ScopeActions

/-- A set of characters. -/
inductive CharClass where
  | range (lo hi : Char)
  | digit
  | space
  | word
  | all
  | none
  | not (c : CharClass)
  | or (a b : CharClass)
  | and (a b : CharClass)
  /-- Characters that differ from one of the set in case at most. -/
  | anyCase (c : CharClass)
  deriving DecidableEq, Repr

namespace CharClass

/-- The set of a single character. -/
def single (c : Char) : CharClass := .range c c

/-- The characters that differ from `c` in case at most. -/
def caseVariants (c : Char) : List Char :=
  let least := Text.fold c
  least :: Text.foldRuns.filterMap fun run =>
    let n := least.toNat + run.offset
    if run.covers n then some (Char.ofNat n) else Option.none

/-- The character belongs to the set. -/
def has : CharClass → Char → Bool
  | range lo hi, c => lo ≤ c && c ≤ hi
  | digit, c => Text.isDigit c
  | space, c => Text.isBlank c
  | word, c => Text.isWord c
  | all, _ => true
  | none, _ => false
  | not a, c => !a.has c
  | or a b, c => a.has c || b.has c
  | and a b, c => a.has c && b.has c
  | anyCase a, c => (caseVariants c).any a.has

/-- The characters of one set that are not in another. -/
def diff (a b : CharClass) : CharClass := .and a (.not b)

end CharClass

/-- A condition on a place in a text. -/
inductive Anchor where
  | textStart
  | textEnd
  /-- The end, or before a line feed that ends the text. -/
  | lastLineEnd
  | lineStart
  | lineEnd
  | wordEdge
  | noWordEdge
  | wordStart
  | wordStop
  deriving DecidableEq, Repr

/-- A pattern. -/
inductive Regex where
  | empty
  | char (c : CharClass)
  | cat (a b : Regex)
  | alt (a b : Regex)
  /-- At least `min` times, and at most `max` times if that is given. -/
  | times (r : Regex) (min : Nat) (max : Option Nat)
  /-- A part whose text can be referred to by number. -/
  | group (index : Nat) (r : Regex)
  | anchor (a : Anchor)
  /-- A text that follows, or does not. -/
  | ahead (wanted : Bool) (r : Regex)
  /-- A text that comes before, or does not. -/
  | behind (wanted : Bool) (r : Regex)
  /-- The text of a group once more. -/
  | again (index : Nat) (anyCase : Bool)
  deriving DecidableEq, Repr

namespace Regex

/-- The numbers of the groups that are referred to. -/
def references : Regex → List Nat
  | cat a b | alt a b => a.references ++ b.references
  | times r _ _ | group _ r | ahead _ r | behind _ r => r.references
  | again index _ => [index]
  | empty | char _ | anchor _ => []

/-- The numbers of the groups. -/
def groups : Regex → List Nat
  | cat a b | alt a b => a.groups ++ b.groups
  | group index r => index :: r.groups
  | times r _ _ | ahead _ r | behind _ r => r.groups
  | empty | char _ | anchor _ | again _ _ => []

end Regex

end ScopeActions
