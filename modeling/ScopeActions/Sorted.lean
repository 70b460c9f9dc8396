/-!
# Sorted maps and sets of texts

Lists in strictly increasing order of their keys, by code points. Sorting by key is part of what the
maps show, so it is the representation.
-/

namespace ScopeActions

namespace SortedSet

/-- Adds a text to an increasing list. -/
def insert : List String → String → List String
  | [], k => [k]
  | k' :: s, k => if k = k' then k' :: s else if k < k' then k :: k' :: s else k' :: insert s k

/-- The texts in increasing order, each once. -/
def ofList (ks : List String) : List String :=
  ks.foldl insert []

theorem mem_insert {s : List String} {k x : String} : x ∈ insert s k ↔ x = k ∨ x ∈ s := by
  induction s with
  | nil => simp [insert]
  | cons k' s ih =>
    unfold insert
    split
    · next h => simp [h]
    · split
      · simp
      · simp only [List.mem_cons, ih]
        exact or_left_comm

theorem mem_ofList {ks : List String} {x : String} : x ∈ ofList ks ↔ x ∈ ks := by
  suffices ∀ s : List String, x ∈ ks.foldl insert s ↔ x ∈ s ∨ x ∈ ks by
    simpa [ofList] using this []
  induction ks with
  | nil => simp
  | cons k ks ih =>
    intro s
    simp only [List.foldl_cons, ih, mem_insert, List.mem_cons]
    constructor
    · rintro ((h | h) | h)
      · exact .inr (.inl h)
      · exact .inl h
      · exact .inr (.inr h)
    · rintro (h | h | h)
      · exact .inl (.inr h)
      · exact .inl (.inl h)
      · exact .inr h

end SortedSet

/-- Bindings in increasing order of their keys. -/
abbrev SortedMap (α : Type u) := List (String × α)

namespace SortedMap

variable {α : Type u}

/-- The value bound to `k`. -/
def get? : SortedMap α → String → Option α
  | [], _ => none
  | (k', v) :: m, k => if k' = k then some v else get? m k

/-- Binds `k` to `v`, keeping the order. -/
def set : SortedMap α → String → α → SortedMap α
  | [], k, v => [(k, v)]
  | (k', w) :: m, k, v =>
    if k = k' then (k', v) :: m else if k < k' then (k, v) :: (k', w) :: m else (k', w) :: set m k v

/-- The keys, in increasing order. -/
def keys (m : SortedMap α) : List String :=
  m.map (·.1)

/-- The map of the bindings, the last one of a key counting. -/
def ofList (bindings : List (String × α)) : SortedMap α :=
  bindings.foldl (fun m b => set m b.1 b.2) []

theorem get?_set (m : SortedMap α) (k : String) (v : α) (k' : String) :
    get? (set m k v) k' = if k = k' then some v else get? m k' := by
  induction m with
  | nil => simp [set, get?]
  | cons b m ih =>
    unfold set
    split
    · next h =>
      subst h
      by_cases h' : b.1 = k' <;> simp [get?, h']
    · next h =>
      split
      · by_cases h' : k = k' <;> simp [get?, h']
      · by_cases h' : b.1 = k'
        · have : k ≠ k' := fun e => h (e.trans h'.symm)
          simp [get?, h', this]
        · simp [get?, h', ih]

end SortedMap

end ScopeActions
