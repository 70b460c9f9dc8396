import ScopeActions.Action
import ScopeActions.Store

/-!
# Worlds

The world that the actions of a run share: the structures store, and whatever else they are given.
-/

namespace ScopeActions

/-- The store, with everything else that actions share. -/
structure World (ε : Type) where
  structures : Store := []
  other : ε

namespace World

variable {ε : Type}

/-- Stores a structure. -/
def store (w : World ε) (key : String) (value : Json) : World ε :=
  { w with structures := SortedMap.set w.structures key value }

end World

/-- The task that applies `f` to the world and then ends. -/
def Task.once {σ α : Type} (f : σ → σ × α) : Task σ α :=
  { last := fun s => ((f s).1, .value (f s).2) }

end ScopeActions
