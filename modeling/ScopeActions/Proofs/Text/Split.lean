import Mathlib.Data.List.Basic
import ScopeActions.Text.Split
/-!
# Splitting and joining

A text is the join of its pieces, and of no other pieces that are free of the separator (`Text.split_eq_iff`). Here `mark`
is the text of the separator `sep`.
-/

namespace ScopeActions.Text

variable {sep : Char} {mark s p : String} {pieces : List String}

theorem split_append (hmark : mark.toList = [sep]) (p q : String) : split sep (p ++ mark ++ q) = split sep p ++ split sep q := by
  have hlist : (p ++ mark ++ q).toList = p.toList ++ sep :: q.toList := by simp [hmark]
  rw [split, hlist, splitOn_append, List.map_append]
  rfl

theorem split_of_notMem (h : sep ∉ p.toList) : split sep p = [p] := by
  suffices ∀ cs : List Char, sep ∉ cs → splitOn sep cs = [cs] by
    rw [split, this _ h, List.map_singleton, String.ofList_toList]
  intro cs hcs
  induction cs with
  | nil => rfl
  | cons c cs ih =>
    obtain ⟨hc, hcs⟩ := not_or.1 (mt List.mem_cons.2 hcs)
    rw [splitOn, if_neg (Ne.symm hc), ih hcs]

theorem split_ne_nil (sep : Char) (s : String) : split sep s ≠ [] := by
  rw [split, ne_eq, List.map_eq_nil_iff]
  exact splitOn_ne_nil sep s.toList

theorem notMem_of_mem_split (h : p ∈ split sep s) : sep ∉ p.toList := by
  obtain ⟨cs, hcs, rfl⟩ := List.mem_map.1 h
  rw [String.toList_ofList]
  exact sep_notMem_of_mem_splitOn hcs

theorem split_intercalate (hmark : mark.toList = [sep]) (hne : pieces ≠ []) (h : ∀ p ∈ pieces, sep ∉ p.toList) :
    split sep (mark.intercalate pieces) = pieces := by
  induction pieces with
  | nil => exact absurd rfl hne
  | cons p pieces ih =>
    obtain ⟨hp, hpieces⟩ := List.forall_mem_cons.1 h
    cases pieces with
    | nil =>
      rw [String.intercalate_singleton]
      exact split_of_notMem hp
    | cons q pieces =>
      rw [String.intercalate_cons_cons, split_append hmark, split_of_notMem hp, ih nofun hpieces]
      rfl

theorem intercalate_split (hmark : mark.toList = [sep]) (s : String) : mark.intercalate (split sep s) = s := by
  have hjoin : ∀ pieces : List (List Char),
      mark.intercalate (pieces.map String.ofList) = String.ofList (joinWith sep pieces) := by
    intro pieces
    induction pieces with
    | nil => exact String.intercalate_nil
    | cons p pieces ih =>
      cases pieces with
      | nil => exact String.intercalate_singleton
      | cons q pieces =>
        rw [List.map_cons, List.map_cons, String.intercalate_cons_cons, ← List.map_cons, ih,
          joinWith_cons sep p (List.cons_ne_nil q pieces), ← String.toList_inj]
        simp [hmark]
  rw [split, hjoin, joinWith_splitOn, String.ofList_toList]

/-- The pieces of a text are those that it is the join of. -/
theorem split_eq_iff (hmark : mark.toList = [sep]) :
    split sep s = pieces ↔ pieces ≠ [] ∧ (∀ p ∈ pieces, sep ∉ p.toList) ∧ s = mark.intercalate pieces := by
  constructor
  · rintro rfl
    exact ⟨split_ne_nil sep s, fun p hp => notMem_of_mem_split hp, (intercalate_split hmark s).symm⟩
  · rintro ⟨hne, hpieces, rfl⟩
    exact split_intercalate hmark hne hpieces

end ScopeActions.Text
