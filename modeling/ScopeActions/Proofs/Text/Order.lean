import Mathlib.Data.List.Nodup
/-!
# Sorting by a text

Items are sorted by a text that each of them has, and those with the same text stay in their order. A sorted list is told
by its items of each text (`eq_of_filter_eq`), and where no two have the same text by which items it has
(`sortBy_eq_of_perm`).
-/

namespace ScopeActions.Text

variable {α β : Type} {key : α → String} {xs ys : List α}

/-- The items in the order of their texts. -/
def sortBy (key : α → String) (xs : List α) : List α :=
  xs.mergeSort fun a b => decide (key a ≤ key b)

theorem sortBy_perm (key : α → String) (xs : List α) : (sortBy key xs).Perm xs :=
  List.mergeSort_perm ..

theorem mem_sortBy {a : α} : a ∈ sortBy key xs ↔ a ∈ xs :=
  (sortBy_perm key xs).mem_iff

theorem decide_le_trans (key : α → String) (a b c : α) (hab : decide (key a ≤ key b) = true)
    (hbc : decide (key b ≤ key c) = true) : decide (key a ≤ key c) = true :=
  decide_eq_true (String.le_trans (of_decide_eq_true hab) (of_decide_eq_true hbc))

theorem decide_le_total (key : α → String) (a b : α) : (decide (key a ≤ key b) || decide (key b ≤ key a)) = true := by
  simpa using String.le_total (key a) (key b)

theorem pairwise_sortBy (key : α → String) (xs : List α) : (sortBy key xs).Pairwise fun a b => key a ≤ key b :=
  (List.pairwise_mergeSort (decide_le_trans key) (decide_le_total key) xs).imp of_decide_eq_true

theorem lt_of_le_of_ne {s t : String} (hle : s ≤ t) (hne : s ≠ t) : s < t := by
  by_contra hlt
  exact hne (String.le_antisymm hle hlt)

/-- Where no two items have the same text, the texts increase. -/
theorem pairwise_lt_sortBy (h : (xs.map key).Nodup) : (sortBy key xs).Pairwise fun a b => key a < key b := by
  have hne : ((sortBy key xs).map key).Nodup := ((sortBy_perm key xs).map key).nodup_iff.2 h
  apply ((pairwise_sortBy key xs).and (List.pairwise_map.1 hne)).imp
  intro a b hab
  exact lt_of_le_of_ne hab.1 hab.2

/-- Items with the same text stay in their order. -/
theorem filter_sortBy (key : α → String) (xs : List α) (s : String) :
    (sortBy key xs).filter (fun a => key a = s) = xs.filter fun a => key a = s := by
  have hsorted : (xs.filter fun a => key a = s).Pairwise fun a b => decide (key a ≤ key b) = true := by
    apply List.pairwise_of_forall_mem_list
    intro a ha b hb
    have ha : key a = s := of_decide_eq_true (List.mem_filter.1 ha).2
    have hb : key b = s := of_decide_eq_true (List.mem_filter.1 hb).2
    rw [ha, hb]
    exact decide_eq_true (String.le_refl s)
  have hsub : (xs.filter fun a => key a = s).Sublist (sortBy key xs) :=
    List.sublist_mergeSort (decide_le_trans key) (decide_le_total key) hsorted List.filter_sublist
  have hfilter := hsub.filter fun a => decide (key a = s)
  rw [List.filter_filter] at hfilter
  simp only [Bool.and_self] at hfilter
  exact (hfilter.eq_of_length ((sortBy_perm key xs).filter _).length_eq.symm).symm

theorem mem_iff_of_filter_eq (h : ∀ s, xs.filter (fun a => key a = s) = ys.filter fun a => key a = s) (a : α) :
    a ∈ xs ↔ a ∈ ys := by
  have ha := congrArg (a ∈ ·) (h (key a))
  simpa using ha

/-- Sorted lists with the same items of each text are the same. -/
theorem eq_of_filter_eq (hx : xs.Pairwise fun a b => key a ≤ key b) (hy : ys.Pairwise fun a b => key a ≤ key b)
    (h : ∀ s, xs.filter (fun a => key a = s) = ys.filter fun a => key a = s) : xs = ys := by
  have hmem := mem_iff_of_filter_eq h
  induction xs generalizing ys with
  | nil =>
    cases ys with
    | nil => rfl
    | cons b ys => simpa using hmem b
  | cons a xs ih =>
    cases ys with
    | nil => simpa using hmem a
    | cons b ys =>
      obtain ⟨ha, hxs⟩ := List.pairwise_cons.1 hx
      obtain ⟨hb, hys⟩ := List.pairwise_cons.1 hy
      -- neither first text comes after the other, which its list would lack
      have hab : key a ≤ key b := by
        rcases List.mem_cons.1 ((hmem b).2 List.mem_cons_self) with rfl | hmem
        · exact String.le_refl _
        · exact ha b hmem
      have hba : key b ≤ key a := by
        rcases List.mem_cons.1 ((hmem a).1 List.mem_cons_self) with rfl | hmem
        · exact String.le_refl _
        · exact hb a hmem
      have hkey : key a = key b := String.le_antisymm hab hba
      have hfirst := h (key a)
      rw [List.filter_cons_of_pos (by simp), List.filter_cons_of_pos (by simp [hkey])] at hfirst
      obtain ⟨rfl, -⟩ := List.cons.inj hfirst
      have hrest : ∀ s, xs.filter (fun c => key c = s) = ys.filter fun c => key c = s := by
        intro s
        have hs := h s
        rw [List.filter_cons, List.filter_cons] at hs
        split at hs
        · exact (List.cons.inj hs).2
        · exact hs
      rw [ih hxs hys hrest (mem_iff_of_filter_eq hrest)]

/-- A sorted list that has the items of each text in their order is the sorted one. -/
theorem eq_sortBy (hy : ys.Pairwise fun a b => key a ≤ key b)
    (h : ∀ s, ys.filter (fun a => key a = s) = xs.filter fun a => key a = s) : ys = sortBy key xs :=
  eq_of_filter_eq hy (pairwise_sortBy key xs) fun s => (h s).trans (filter_sortBy key xs s).symm

/-- Where no two items have the same text, their order before sorting does not show. -/
theorem sortBy_eq_of_perm (h : xs.Perm ys) (hnodup : (xs.map key).Nodup) : sortBy key xs = sortBy key ys := by
  have hperm : (sortBy key xs).Perm (sortBy key ys) := (sortBy_perm key xs).trans (h.trans (sortBy_perm key ys).symm)
  apply hperm.eq_of_pairwise _ (pairwise_sortBy key xs) (pairwise_sortBy key ys)
  intro a b ha hb hab hba
  have ha : a ∈ xs := mem_sortBy.1 ha
  have hb : b ∈ xs := h.mem_iff.2 (mem_sortBy.1 hb)
  exact List.inj_on_of_nodup_map hnodup ha hb (String.le_antisymm hab hba)

end ScopeActions.Text
