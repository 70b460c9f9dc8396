/-!
# Splitting text at a character

`splitOn` cuts a text at every occurrence of a separator, so that joining the pieces with the
separator gives the text back. There is always at least one piece.
-/

namespace ScopeActions.Text

/-- The pieces between the occurrences of `sep`. -/
def splitOn (sep : Char) : List Char → List (List Char)
  | [] => [[]]
  | c :: cs =>
    if c = sep then
      [] :: splitOn sep cs
    else
      match splitOn sep cs with
      | [] => [[c]]
      | piece :: pieces => (c :: piece) :: pieces

/-- Writes the pieces one after the other with `sep` between them. -/
def joinWith (sep : Char) : List (List Char) → List Char
  | [] => []
  | [piece] => piece
  | piece :: pieces => piece ++ sep :: joinWith sep pieces

theorem splitOn_ne_nil (sep : Char) (cs : List Char) : splitOn sep cs ≠ [] := by
  cases cs with
  | nil => simp [splitOn]
  | cons c cs =>
    unfold splitOn
    split
    · simp
    · split <;> simp

theorem joinWith_cons (sep : Char) (piece : List Char) {pieces : List (List Char)}
    (h : pieces ≠ []) :
    joinWith sep (piece :: pieces) = piece ++ sep :: joinWith sep pieces := by
  cases pieces with
  | nil => exact absurd rfl h
  | cons => rfl

/-- Splitting loses nothing. -/
theorem joinWith_splitOn (sep : Char) (cs : List Char) : joinWith sep (splitOn sep cs) = cs := by
  induction cs with
  | nil => rfl
  | cons c cs ih =>
    unfold splitOn
    split
    · next h => rw [joinWith_cons sep _ (splitOn_ne_nil sep cs), ih, h]; rfl
    · split
      · next h => exact absurd h (splitOn_ne_nil sep cs)
      · next piece pieces h =>
        rw [h] at ih
        cases pieces with
        | nil => simpa [joinWith] using ih
        | cons => simpa [joinWith] using ih

/-- What stands on both sides of a separator is split apart. -/
theorem splitOn_append (sep : Char) (cs ds : List Char) :
    splitOn sep (cs ++ sep :: ds) = splitOn sep cs ++ splitOn sep ds := by
  induction cs with
  | nil => simp [splitOn]
  | cons c cs ih =>
    rw [List.cons_append, splitOn, splitOn]
    split
    · rw [ih, List.cons_append]
    · rw [ih]
      cases h : splitOn sep cs with
      | nil => exact absurd h (splitOn_ne_nil sep cs)
      | cons piece pieces => rfl

theorem joinWith_append (sep : Char) {ps qs : List (List Char)} (hp : ps ≠ []) (hq : qs ≠ []) :
    joinWith sep (ps ++ qs) = joinWith sep ps ++ sep :: joinWith sep qs := by
  induction ps with
  | nil => exact absurd rfl hp
  | cons piece ps ih =>
    cases ps with
    | nil => exact joinWith_cons sep piece hq
    | cons next ps =>
      have hne : next :: ps ≠ [] := List.cons_ne_nil next ps
      rw [List.cons_append, joinWith_cons sep piece (by simp), joinWith_cons sep piece hne, ih hne, List.append_assoc]
      rfl

/-- The pieces are free of the separator. -/
theorem sep_notMem_of_mem_splitOn {sep : Char} {cs piece : List Char}
    (h : piece ∈ splitOn sep cs) : sep ∉ piece := by
  induction cs generalizing piece with
  | nil => simp_all [splitOn]
  | cons c cs ih =>
    unfold splitOn at h
    split at h
    · rcases List.mem_cons.1 h with rfl | h
      · simp
      · exact ih h
    · next hc =>
      split at h
      · simp_all
        exact fun h => hc h.symm
      · next head rest hs =>
        rcases List.mem_cons.1 h with rfl | h
        · have := ih (hs ▸ List.mem_cons_self)
          simp only [List.mem_cons, not_or]
          exact ⟨fun h => hc h.symm, this⟩
        · exact ih (hs ▸ List.mem_cons_of_mem _ h)

/-- `splitOn` on strings. -/
def split (sep : Char) (s : String) : List String :=
  (splitOn sep s.toList).map String.ofList

/-- The text before and after the first occurrence of `sep`. -/
def splitFirst (sep : Char) : List Char → Option (List Char × List Char)
  | [] => none
  | c :: cs =>
    if c = sep then some ([], cs) else (splitFirst sep cs).map fun p => (c :: p.1, p.2)

end ScopeActions.Text
