/-!
# Insertion-ordered maps

A map is the list of its bindings. A new key goes to the end, and a key that is there already keeps
its place and takes the new value. `Assoc.keys` is the view that order is stated on, `Assoc.get?` the
view that contents are stated on.
-/

namespace ScopeActions

/-- Bindings in the order in which their keys were first inserted. -/
abbrev Assoc (α : Type u) := List (String × α)

namespace Assoc

variable {α : Type u}

/-- The value of the first binding of `k`. -/
def get? : Assoc α → String → Option α
  | [], _ => none
  | (k', v) :: m, k => if k' = k then some v else get? m k

/-- Some binding has the key `k`. -/
def contains (m : Assoc α) (k : String) : Bool :=
  (get? m k).isSome

/-- The keys, in insertion order. -/
def keys (m : Assoc α) : List String :=
  m.map (·.1)

/-- The values, in insertion order of their keys. -/
def values (m : Assoc α) : List α :=
  m.map (·.2)

/-- Binds `k` to `v`: in place when `k` is bound, at the end when not. -/
def put : Assoc α → String → α → Assoc α
  | [], k, v => [(k, v)]
  | (k', w) :: m, k, v => if k' = k then (k', v) :: m else (k', w) :: put m k v

/-- The map that the bindings leave when they are inserted one after the other. -/
def ofList (bindings : List (String × α)) : Assoc α :=
  bindings.foldl (fun m b => put m b.1 b.2) []

@[simp] theorem get?_nil (k : String) : get? ([] : Assoc α) k = none := rfl

theorem get?_put (m : Assoc α) (k : String) (v : α) (k' : String) :
    get? (put m k v) k' = if k = k' then some v else get? m k' := by
  induction m with
  | nil => simp [put, get?]
  | cons b m ih =>
    by_cases h : b.1 = k
    · by_cases h' : k = k' <;> simp_all [put, get?]
    · by_cases h' : b.1 = k' <;> by_cases h'' : k = k' <;> simp_all [put, get?]

theorem contains_iff_mem_keys {m : Assoc α} {k : String} :
    contains m k = true ↔ k ∈ keys m := by
  induction m with
  | nil => simp [contains, keys]
  | cons b m ih =>
    by_cases h : b.1 = k
    · simp [contains, keys, get?, h]
    · simp only [contains, keys, get?, if_neg h, List.map_cons, List.mem_cons, Ne.symm h, false_or]
      exact ih

/-- A new key goes to the end, a known one stays where it is. -/
theorem keys_put (m : Assoc α) (k : String) (v : α) :
    keys (put m k v) = if k ∈ keys m then keys m else keys m ++ [k] := by
  induction m with
  | nil => simp [put, keys]
  | cons b m ih =>
    by_cases h : b.1 = k
    · simp [put, keys, h]
    · have : k ∈ keys (b :: m) ↔ k ∈ keys m := by simp [keys, Ne.symm h]
      simp only [put, if_neg h, this]
      simp only [keys, List.map_cons] at ih ⊢
      rw [ih]
      split <;> simp_all

theorem nodup_keys_put {m : Assoc α} (hm : (keys m).Nodup) (k : String) (v : α) : (keys (put m k v)).Nodup := by
  rw [keys_put]
  split
  · exact hm
  · next hk =>
    refine List.nodup_append.2 ⟨hm, by simp, ?_⟩
    rintro a ha b hb rfl
    exact hk (List.mem_singleton.1 hb ▸ ha)

theorem nodup_keys_ofList (bindings : List (String × α)) : (keys (ofList bindings)).Nodup := by
  suffices ∀ m : Assoc α, (keys m).Nodup → (keys (bindings.foldl (fun m b => put m b.1 b.2) m)).Nodup from
    this [] List.nodup_nil
  induction bindings with
  | nil => exact fun _ hm => hm
  | cons b bindings ih => exact fun m hm => ih _ (nodup_keys_put hm b.1 b.2)

theorem exists_of_contains {m : Assoc α} {k : String} (h : contains m k = true) : ∃ v, get? m k = some v :=
  Option.isSome_iff_exists.1 h

theorem contains_of_get? {m : Assoc α} {k : String} {v : α} (h : get? m k = some v) : contains m k = true :=
  Option.isSome_iff_exists.2 ⟨v, h⟩

theorem mem_keys_of_get? {m : Assoc α} {k : String} {v : α} (h : get? m k = some v) : k ∈ keys m :=
  contains_iff_mem_keys.1 (contains_of_get? h)

theorem exists_of_mem_keys {m : Assoc α} {k : String} (h : k ∈ keys m) : ∃ v, get? m k = some v :=
  exists_of_contains (contains_iff_mem_keys.2 h)

theorem get?_eq_none {m : Assoc α} {k : String} (h : k ∉ keys m) : get? m k = none :=
  Option.not_isSome_iff_eq_none.1 fun hs => h (contains_iff_mem_keys.1 hs)

theorem mem_of_get? {m : Assoc α} {k : String} {v : α} (h : get? m k = some v) : (k, v) ∈ m := by
  induction m with
  | nil => cases h
  | cons b m ih =>
    by_cases hb : b.1 = k
    · simp only [get?, if_pos hb, Option.some.injEq] at h
      exact List.mem_cons.2 (.inl (Prod.ext hb.symm h.symm))
    · simp only [get?, if_neg hb] at h
      exact List.mem_cons_of_mem b (ih h)

theorem get?_of_mem {m : Assoc α} (hm : (keys m).Nodup) {k : String} {v : α} (h : (k, v) ∈ m) :
    get? m k = some v := by
  induction m with
  | nil => cases h
  | cons b m ih =>
    obtain ⟨hb, hm⟩ := List.nodup_cons.1 (show (b.1 :: keys m).Nodup from hm)
    rcases List.mem_cons.1 h with rfl | h
    · simp [get?]
    · have : b.1 ≠ k := fun e => hb (List.mem_map.2 ⟨(k, v), h, e.symm⟩)
      simp only [get?, if_neg this]
      exact ih hm h

theorem mem_put {m : Assoc α} {k : String} {v : α} {b : String × α} (h : b ∈ put m k v) : b ∈ m ∨ b = (k, v) := by
  induction m with
  | nil => exact .inr (by simpa [put] using h)
  | cons c m ih =>
    unfold put at h
    split at h
    · next hc =>
      rcases List.mem_cons.1 h with rfl | h
      · exact .inr (by rw [hc])
      · exact .inl (List.mem_cons_of_mem c h)
    · rcases List.mem_cons.1 h with rfl | h
      · exact .inl List.mem_cons_self
      · exact (ih h).imp_left (List.mem_cons_of_mem c)

theorem put_of_not_mem {m : Assoc α} {k : String} (h : k ∉ keys m) (v : α) : put m k v = m ++ [(k, v)] := by
  induction m with
  | nil => rfl
  | cons b m ih =>
    have hb : b.1 ≠ k := fun hb => h (List.mem_cons.2 (.inl hb.symm))
    have hm : k ∉ keys m := fun hm => h (List.mem_cons_of_mem b.1 hm)
    simp only [put, if_neg hb, ih hm, List.cons_append]

/-- Bindings of keys that are not repeated are inserted as they stand. -/
theorem ofList_of_nodup {bindings : List (String × α)} (h : (keys bindings).Nodup) : ofList bindings = bindings := by
  suffices ∀ m : Assoc α, (keys (m ++ bindings)).Nodup →
      bindings.foldl (fun m b => put m b.1 b.2) m = m ++ bindings from this [] h
  induction bindings with
  | nil => exact fun m _ => (List.append_nil m).symm
  | cons b bindings ih =>
    intro m hm
    have hb : b.1 ∉ keys m := by
      simp only [keys, List.map_append, List.map_cons, List.nodup_append] at hm
      exact fun hmem => hm.2.2 b.1 hmem b.1 List.mem_cons_self rfl
    rw [List.append_cons] at hm
    rw [List.foldl_cons, put_of_not_mem hb, ih (List.nodup_cons.1 h).2 _ hm]
    exact (List.append_cons m b bindings).symm

/-- Inserting makes up no binding. -/
theorem mem_ofList {bindings : List (String × α)} {b : String × α} (h : b ∈ ofList bindings) : b ∈ bindings := by
  suffices ∀ m : Assoc α, b ∈ bindings.foldl (fun m b => put m b.1 b.2) m → b ∈ m ∨ b ∈ bindings from
    (this [] h).resolve_left List.not_mem_nil
  clear h
  induction bindings with
  | nil => exact fun m hm => .inl hm
  | cons c bindings ih =>
    intro m hm
    rcases ih _ hm with hm | hm
    · rcases mem_put hm with hm | rfl
      · exact .inl hm
      · exact .inr List.mem_cons_self
    · exact .inr (List.mem_cons_of_mem c hm)

/-- Binding a key to the value that it has changes nothing. -/
theorem put_of_get? {m : Assoc α} {k : String} {v : α} (h : get? m k = some v) : put m k v = m := by
  induction m with
  | nil => cases h
  | cons b m ih =>
    by_cases hb : b.1 = k
    · simp only [get?, if_pos hb, Option.some.injEq] at h
      simp only [put, if_pos hb, ← h]
    · simp only [get?, if_neg hb] at h
      simp only [put, if_neg hb, ih h]

/-- A value in place of one that looks the same leaves the look of the map as it was. -/
theorem map_put {β : Type v} {f : α → β} {m : Assoc α} {k : String} {v w : α} (h : get? m k = some v) (hf : f w = f v) :
    (put m k w).map (fun b => (b.1, f b.2)) = m.map fun b => (b.1, f b.2) := by
  induction m with
  | nil => cases h
  | cons b m ih =>
    unfold put
    by_cases hb : b.1 = k
    · simp only [get?, if_pos hb, Option.some.injEq] at h
      rw [if_pos hb, List.map_cons, List.map_cons, hf, h]
    · simp only [get?, if_neg hb] at h
      rw [if_neg hb, List.map_cons, List.map_cons, ih h]

theorem get?_map (m : Assoc α) (f : String → α → α) (k : String) :
    get? (m.map fun b => (b.1, f b.1 b.2)) k = (get? m k).map (f k) := by
  induction m with
  | nil => rfl
  | cons b m ih =>
    by_cases hb : b.1 = k
    · simp [get?, hb]
    · simpa [get?, hb] using ih

/-- A map without repeated keys is told by its keys, in order, and what they are bound to. -/
theorem ext {m m' : Assoc α} (hk : keys m = keys m') (hm : (keys m).Nodup) (h : ∀ k, get? m k = get? m' k) :
    m = m' := by
  induction m generalizing m' with
  | nil => exact (List.map_eq_nil_iff.1 hk.symm).symm
  | cons b m ih =>
    cases m' with
    | nil => cases hk
    | cons b' m' =>
      obtain ⟨hb, hk⟩ := List.cons_eq_cons.1 (show b.1 :: keys m = b'.1 :: keys m' from hk)
      obtain ⟨hmem, hm⟩ := List.nodup_cons.1 (show (b.1 :: keys m).Nodup from hm)
      have hvalue : b.2 = b'.2 := by simpa [get?, hb] using h b.1
      have htail : m = m' := by
        refine ih hk hm fun k => ?_
        by_cases hbk : b.1 = k
        · rw [get?_eq_none (hbk ▸ hmem), get?_eq_none (hk ▸ hbk ▸ hmem)]
        · simpa [get?, hbk, hb ▸ hbk] using h k
      rw [htail, Prod.ext hb hvalue]

end Assoc

end ScopeActions
