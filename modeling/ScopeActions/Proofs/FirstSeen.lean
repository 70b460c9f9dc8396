import Mathlib.Data.List.Basic
import Mathlib.Data.List.Induction
/-!
# First occurrences

`List.eraseDups` keeps each item where it first occurs. It is read from the end of the list here, where items are
added.
-/

namespace ScopeActions

variable {α : Type} [DecidableEq α]

/-- An item that comes again keeps its place, a new one goes to the end. -/
theorem eraseDups_concat (xs : List α) (x : α) :
    (xs ++ [x]).eraseDups = if x ∈ xs then xs.eraseDups else xs.eraseDups ++ [x] := by
  have hx : [x].eraseDups = [x] := rfl
  rw [List.eraseDups_append]
  split
  · next h => simp [List.removeAll, h]
  · next h => simp [List.removeAll, h, hx]

theorem nodup_eraseDups (xs : List α) : xs.eraseDups.Nodup := by
  induction xs using List.reverseRecOn with
  | nil => exact List.nodup_nil
  | append_singleton xs x ih =>
    rw [eraseDups_concat]
    split
    · exact ih
    · next hx => exact List.nodup_append.2 ⟨ih, by simp, by simpa using fun a ha => ne_of_mem_of_not_mem ha hx⟩

/-- What is kept stands in the order of the first occurrences. -/
theorem pairwise_idxOf_eraseDups (xs : List α) : xs.eraseDups.Pairwise fun a b => xs.idxOf a < xs.idxOf b := by
  induction xs using List.reverseRecOn with
  | nil => exact .nil
  | append_singleton xs x ih =>
    have hlater : xs.eraseDups.Pairwise fun a b => (xs ++ [x]).idxOf a < (xs ++ [x]).idxOf b := by
      refine ih.imp_of_mem fun {a b} ha hb hab => ?_
      rwa [List.idxOf_append_of_mem (List.mem_eraseDups.1 ha), List.idxOf_append_of_mem (List.mem_eraseDups.1 hb)]
    rw [eraseDups_concat]
    split
    · exact hlater
    · next hx =>
      refine List.pairwise_append.2 ⟨hlater, List.pairwise_singleton _ _, fun a ha b hb => ?_⟩
      have ha : a ∈ xs := List.mem_eraseDups.1 ha
      rw [List.mem_singleton.1 hb, List.idxOf_append_of_mem ha, List.idxOf_append_of_notMem hx]
      exact Nat.lt_add_right _ (List.idxOf_lt_length_of_mem ha)

end ScopeActions
