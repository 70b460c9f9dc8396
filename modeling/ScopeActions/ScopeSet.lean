import ScopeActions.Sorted

/-!
# Sets of scopes

A set of scopes, such as those that some action cares about, is the sorted list of them.
-/

namespace ScopeActions

/-- A set of scopes, as an increasing list. -/
abbrev ScopeSet := List String

namespace ScopeSet

/-- The set of the given scopes. -/
def ofList (scopes : List String) : ScopeSet :=
  SortedSet.ofList scopes

/-- Adds a scope and tells whether it is new. -/
def insert (k : ScopeSet) (scope : String) : Bool × ScopeSet :=
  (!k.contains scope, SortedSet.insert k scope)

/-- One of the texts is in the set. -/
def containsAny (k : ScopeSet) (texts : List String) : Bool :=
  texts.any fun s => k.contains s

theorem mem_ofList {scopes : List String} {s : String} : s ∈ ofList scopes ↔ s ∈ scopes :=
  SortedSet.mem_ofList

theorem mem_insert {k : ScopeSet} {scope s : String} :
    s ∈ (insert k scope).2 ↔ s = scope ∨ s ∈ k :=
  SortedSet.mem_insert

end ScopeSet

end ScopeActions
