import ScopeActions.Json.Value
import ScopeActions.Sorted

/-!
# The structures store

Actions write what they extract into named structures. The store only reads and writes whole values
and never looks inside them.
-/

namespace ScopeActions

/-- The structures by name, sorted. -/
abbrev Store := SortedMap Json

namespace Store

/-- The value of a structure, after storing `initial` there if it was absent. -/
def getOrSet (s : Store) (key : String) (initial : Json) : Json × Store :=
  match SortedMap.get? s key with
  | some v => (v, s)
  | none => (initial, SortedMap.set s key initial)

/-- Applies `f` to a structure, which is `initial` if it was absent. -/
def update {α : Type} (s : Store) (key : String) (initial : Json) (f : Json → Json × α) :
    Store × α :=
  let r := f ((SortedMap.get? s key).getD initial)
  (SortedMap.set s key r.1, r.2)

/-- Every structure, as one value. -/
def snapshot (s : Store) : Json :=
  .obj s

end Store

end ScopeActions
