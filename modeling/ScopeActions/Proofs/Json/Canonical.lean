import ScopeActions.Json.Value
/-!
# Canonical values

A value is canonical when no object in it repeats a key. `Json.canonical` gives such a value, and leaves one that is
canonical as it is.
-/

namespace ScopeActions.Json

/-- The values one step below. -/
def values : Json → List Json
  | arr items => items
  | obj fields => fields.map (·.2)
  | _ => []

theorem sizeOf_lt_of_mem_values {v c : Json} (h : c ∈ v.values) : sizeOf c < sizeOf v := by
  cases v with
  | arr items =>
    have := List.sizeOf_lt_of_mem (show c ∈ items from h)
    simp only [arr.sizeOf_spec]
    omega
  | obj fields =>
    obtain ⟨f, hf, rfl⟩ := List.mem_map.1 h
    have := List.sizeOf_lt_of_mem hf
    rcases f with ⟨key, c⟩
    simp only [Prod.mk.sizeOf_spec, obj.sizeOf_spec] at this ⊢
    omega
  | _ => cases h

/-- What holds of a value when it holds of the values one step below holds of every value. -/
@[elab_as_elim, induction_eliminator]
theorem induct {P : Json → Prop} (node : ∀ v, (∀ c ∈ v.values, P c) → P v) (v : Json) : P v :=
  node v fun c _ => induct node c
termination_by sizeOf v
decreasing_by exact sizeOf_lt_of_mem_values ‹_›

/-- No object in the value repeats a key. -/
inductive Unrepeated : Json → Prop
  | mk {v : Json} : (∀ fields, v = obj fields → (Assoc.keys fields).Nodup) → (∀ c ∈ v.values, Unrepeated c) →
      Unrepeated v

theorem unrepeated_null : null.Unrepeated := .mk nofun nofun

theorem unrepeated_str (s : String) : (str s).Unrepeated := .mk nofun nofun

theorem canonicalItems_eq (items : List Json) : canonicalItems items = items.map canonical := by
  induction items with
  | nil => rfl
  | cons v items ih => rw [canonicalItems, ih, List.map_cons]

theorem canonicalFields_eq (fields : List (String × Json)) :
    canonicalFields fields = fields.map fun f => (f.1, f.2.canonical) := by
  induction fields with
  | nil => rfl
  | cons f fields ih =>
    rcases f with ⟨key, v⟩
    rw [canonicalFields, ih, List.map_cons]

/-- A canonical value repeats no keys. -/
theorem unrepeated_canonical (v : Json) : v.canonical.Unrepeated := by
  induction v with
  | node v ih =>
    cases v with
    | arr items =>
      rw [canonical, canonicalItems_eq]
      refine .mk nofun fun c hc => ?_
      obtain ⟨v, hv, rfl⟩ := List.mem_map.1 (show c ∈ items.map canonical from hc)
      exact ih v hv
    | obj fields =>
      rw [canonical, canonicalFields_eq]
      constructor
      · rintro _ ⟨⟩
        exact Assoc.nodup_keys_ofList _
      · intro c hc
        obtain ⟨b, hb, rfl⟩ := List.mem_map.1 hc
        obtain ⟨f, hf, rfl⟩ := List.mem_map.1 (Assoc.mem_ofList hb)
        exact ih f.2 (List.mem_map_of_mem hf)
    | _ => exact .mk nofun nofun

/-- A value that repeats no keys is canonical. -/
theorem Unrepeated.canonical_eq {v : Json} (h : v.Unrepeated) : v.canonical = v := by
  induction h with
  | @mk v hkeys _ ih =>
    cases v with
    | arr items =>
      have hitems : items.map canonical = items := (List.map_congr_left ih).trans (List.map_id' items)
      rw [canonical, canonicalItems_eq, hitems]
    | obj fields =>
      have hfield : ∀ f ∈ fields, (f.1, f.2.canonical) = f := fun f hf =>
        Prod.ext rfl (ih f.2 (List.mem_map_of_mem hf))
      have hfields : (fields.map fun f => (f.1, f.2.canonical)) = fields :=
        (List.map_congr_left hfield).trans (List.map_id' fields)
      rw [canonical, canonicalFields_eq, hfields, Assoc.ofList_of_nodup (hkeys fields rfl)]
    | _ => rfl

end ScopeActions.Json
