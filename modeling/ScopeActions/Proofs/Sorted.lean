import Mathlib.Data.List.Sort
import ScopeActions.Sorted
/-!
# Sorted maps and sets

A sorted map is told by its look-ups (`SortedMap.Increasing.ext`), a sorted set by its texts (`SortedSet.ofList_congr`).
-/

namespace ScopeActions.SortedSet

variable {s ks ks' : List String}

theorem pairwise_insert (h : s.Pairwise (· < ·)) (k : String) : (insert s k).Pairwise (· < ·) := by
  induction s with
  | nil => exact List.pairwise_singleton _ _
  | cons k' s ih =>
    obtain ⟨hk', hs⟩ := List.pairwise_cons.1 h
    unfold insert
    split
    · exact h
    · split
      · next hk =>
        refine List.pairwise_cons.2 ⟨fun x hx => ?_, h⟩
        rcases List.mem_cons.1 hx with rfl | hx
        · exact hk
        · exact String.lt_trans hk (hk' x hx)
      · next hne hk =>
        refine List.pairwise_cons.2 ⟨fun x hx => ?_, ih hs⟩
        rcases mem_insert.1 hx with rfl | hx
        · grind
        · exact hk' x hx

theorem pairwise_ofList (ks : List String) : (ofList ks).Pairwise (· < ·) := by
  suffices ∀ s : List String, s.Pairwise (· < ·) → (ks.foldl insert s).Pairwise (· < ·) from this [] .nil
  intro s hs
  induction ks generalizing s with
  | nil => exact hs
  | cons k ks ih => exact ih _ (pairwise_insert hs k)

/-- Neither order nor repetition counts. -/
theorem ofList_congr (h : ∀ k, k ∈ ks ↔ k ∈ ks') : ofList ks = ofList ks' := by
  have : Std.Irrefl fun a b : String => a < b := ⟨String.lt_irrefl⟩
  have : Std.Antisymm fun a b : String => a < b :=
    ⟨fun _ _ hab hba => absurd (String.lt_trans hab hba) (String.lt_irrefl _)⟩
  refine (pairwise_ofList ks).eq_of_mem_iff (pairwise_ofList ks') fun k => ?_
  rw [mem_ofList, mem_ofList, h k]

end ScopeActions.SortedSet

namespace ScopeActions.SortedMap

variable {α : Type} {m m' : SortedMap α} {k : String} {v : α}

/-- The keys increase. -/
def Increasing (m : SortedMap α) : Prop :=
  m.Pairwise fun b c => b.1 < c.1

theorem mem_of_mem_set {b : String × α} (hb : b ∈ set m k v) : b = (k, v) ∨ b ∈ m := by
  induction m with
  | nil => exact .inl (List.mem_singleton.1 hb)
  | cons c m ih =>
    unfold set at hb
    split at hb
    · next h =>
      rcases List.mem_cons.1 hb with rfl | hb
      · exact .inl (by rw [h])
      · exact .inr (List.mem_cons_of_mem c hb)
    · split at hb
      · exact List.mem_cons.1 hb
      · rcases List.mem_cons.1 hb with rfl | hb
        · exact .inr List.mem_cons_self
        · exact (ih hb).imp_right (List.mem_cons_of_mem c)

theorem Increasing.set (h : Increasing m) (k : String) (v : α) : Increasing (set m k v) := by
  induction m with
  | nil => exact List.pairwise_singleton _ _
  | cons c m ih =>
    obtain ⟨hc, hm⟩ := List.pairwise_cons.1 h
    unfold SortedMap.set
    split
    · exact List.pairwise_cons.2 ⟨hc, hm⟩
    · split
      · next hk =>
        refine List.pairwise_cons.2 ⟨fun b hb => ?_, h⟩
        rcases List.mem_cons.1 hb with rfl | hb
        · exact hk
        · exact String.lt_trans hk (hc b hb)
      · next hne hk =>
        refine List.pairwise_cons.2 ⟨fun b hb => ?_, ih hm⟩
        rcases mem_of_mem_set hb with rfl | hb
        · grind
        · exact hc b hb

theorem get?_eq_none (h : ∀ b ∈ m, k < b.1) : get? m k = none := by
  induction m with
  | nil => rfl
  | cons c m ih =>
    have hc := h c List.mem_cons_self
    unfold get?
    rw [if_neg, ih fun b hb => h b (List.mem_cons_of_mem c hb)]
    rintro rfl
    exact String.lt_irrefl _ hc

theorem get?_cons (b : String × α) (m : SortedMap α) (k : String) :
    get? (b :: m) k = if b.1 = k then some b.2 else get? m k :=
  rfl

theorem Increasing.get?_eq_none {b : String × α} (h : Increasing (b :: m)) (hk : k < b.1) : get? (b :: m) k = none := by
  refine SortedMap.get?_eq_none fun c hc => ?_
  rcases List.mem_cons.1 hc with rfl | hc
  · exact hk
  · exact String.lt_trans hk ((List.pairwise_cons.1 h).1 c hc)

/-- Maps with the same look-ups are the same. -/
theorem Increasing.ext (h : Increasing m) (h' : Increasing m') (heq : ∀ k, get? m k = get? m' k) : m = m' := by
  induction m generalizing m' with
  | nil =>
    cases m' with
    | nil => rfl
    | cons c m' => simpa [get?] using heq c.1
  | cons b m ih =>
    cases m' with
    | nil => simpa [get?] using heq b.1
    | cons c m' =>
      have hbfound : get? (c :: m') b.1 = some b.2 := (heq b.1).symm.trans (if_pos rfl)
      have hcfound : get? (b :: m) c.1 = some c.2 := (heq c.1).trans (if_pos rfl)
      -- neither first key is less than the other, which its map would lack
      have hfirst : b.1 = c.1 := by
        have hbc : ¬b.1 < c.1 := fun hlt => by simp [h'.get?_eq_none hlt] at hbfound
        have hcb : ¬c.1 < b.1 := fun hlt => by simp [h.get?_eq_none hlt] at hcfound
        grind
      rw [get?_cons, if_pos hfirst.symm, Option.some.injEq] at hbfound
      obtain ⟨hlt, hm⟩ := List.pairwise_cons.1 h
      obtain ⟨hlt', hm'⟩ := List.pairwise_cons.1 h'
      rw [Prod.ext hfirst hbfound.symm]
      refine congrArg _ (ih hm hm' fun k => ?_)
      by_cases hk : b.1 = k
      · rw [SortedMap.get?_eq_none (hk ▸ hlt), SortedMap.get?_eq_none (hk ▸ hfirst ▸ hlt')]
      · have := heq k
        rwa [get?_cons, get?_cons, if_neg hk, if_neg (hfirst ▸ hk)] at this

theorem mem_of_get? (h : get? m k = some v) : (k, v) ∈ m := by
  induction m with
  | nil => cases h
  | cons b m ih =>
    rw [get?_cons] at h
    split at h
    · next hb =>
      cases h
      exact List.mem_cons.2 (.inl (Prod.ext hb.symm rfl))
    · exact List.mem_cons_of_mem b (ih h)

theorem Increasing.get?_of_mem (h : Increasing m) {b : String × α} (hb : b ∈ m) : get? m b.1 = some b.2 := by
  induction m with
  | nil => cases hb
  | cons c m ih =>
    obtain ⟨hc, hm⟩ := List.pairwise_cons.1 h
    rw [get?_cons]
    rcases List.mem_cons.1 hb with rfl | hb
    · rw [if_pos rfl]
    · rw [if_neg, ih hm hb]
      intro heq
      exact String.lt_irrefl _ (heq ▸ hc b hb)

/-! ## Maps of bindings -/

theorem mem_ofList {bs : List (String × α)} {b : String × α} (hb : b ∈ ofList bs) : b ∈ bs := by
  suffices ∀ m : SortedMap α, b ∈ bs.foldl (fun m b => set m b.1 b.2) m → b ∈ bs ∨ b ∈ m from
    (this [] hb).resolve_right List.not_mem_nil
  clear hb
  induction bs with
  | nil => exact fun m hm => .inr hm
  | cons c bs ih =>
    intro m hm
    rcases ih _ hm with hm | hm
    · exact .inl (List.mem_cons_of_mem c hm)
    · exact (mem_of_mem_set hm).imp_left fun h => List.mem_cons.2 (.inl h)

theorem increasing_ofList (bs : List (String × α)) : Increasing (ofList bs) := by
  suffices ∀ m : SortedMap α, Increasing m → Increasing (bs.foldl (fun m b => set m b.1 b.2) m) from this [] .nil
  intro m hm
  induction bs generalizing m with
  | nil => exact hm
  | cons b bs ih => exact ih _ (hm.set b.1 b.2)

/-- Bindings that agree on each key are looked up by their keys. -/
theorem get?_ofList {bs : List (String × α)} {f : String → α} (h : ∀ b ∈ bs, b.2 = f b.1) (k : String) :
    get? (ofList bs) k = if k ∈ bs.map (·.1) then some (f k) else none := by
  suffices ∀ m : SortedMap α, get? (bs.foldl (fun m b => set m b.1 b.2) m) k =
      if k ∈ bs.map (·.1) then some (f k) else get? m k from this []
  intro m
  induction bs generalizing m with
  | nil => rfl
  | cons b bs ih =>
    rw [List.foldl_cons, ih (fun c hc => h c (List.mem_cons_of_mem b hc)), get?_set, List.map_cons]
    have hb := h b List.mem_cons_self
    by_cases hk : k ∈ bs.map (·.1)
    · rw [if_pos hk, if_pos (List.mem_cons_of_mem _ hk)]
    · by_cases hbk : b.1 = k
      · rw [if_neg hk, if_pos hbk, if_pos (List.mem_cons.2 (.inl hbk.symm)), hb, hbk]
      · rw [if_neg hk, if_neg hbk, if_neg]
        rw [List.mem_cons]
        rintro (h | h)
        · exact hbk h.symm
        · exact hk h

end ScopeActions.SortedMap
