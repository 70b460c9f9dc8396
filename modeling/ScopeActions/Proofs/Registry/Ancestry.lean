import ScopeActions.Proofs.Registry.Attempt
/-!
# Ancestors

A descent along the segments of a scope meets the groups at all prefixes (`Trie.along_eq`), which are those that the scope
and its parents find one by one. So each policy is told by the chain of parents (`Registry.attemptAll_ancestors`).
-/

namespace ScopeActions

variable {η : Type}

namespace Trie

theorem groupAt_cons (n : Trie η) (s : String) (path : List String) :
    n.groupAt (s :: path) = (Assoc.get? n.children s).bind fun child => child.groupAt path := by
  rw [groupAt, find?_cons, Option.bind_assoc]
  rfl

/-- A descent meets the groups at all prefixes of its path but the empty one, whether it comes to the end of the path
or not. -/
theorem along_eq (n : Trie η) (path : List String) : n.along path = path.inits.tail.filterMap n.groupAt := by
  induction path generalizing n with
  | nil => rfl
  | cons s path ih =>
    have htail : (s :: path).inits.tail.filterMap n.groupAt = path.inits.filterMap fun rest => n.groupAt (s :: rest) := by
      simp [List.filterMap_map]
    rw [htail]
    unfold along
    split
    · next hnone => simp [groupAt_cons, hnone]
    · next child hchild =>
      have hinits : path.inits = [] :: path.inits.tail := by cases path <;> simp
      have hbelow : ∀ rest, n.groupAt (s :: rest) = child.groupAt rest := by
        intro rest
        rw [groupAt_cons, hchild]
        rfl
      simp only [hbelow]
      rw [ih, hinits, List.filterMap_cons]
      change child.match?.toList ++ _ = _
      cases hgroup : child.groupAt [] with
      | none =>
        change child.match? = none at hgroup
        simp [hgroup]
      | some g =>
        change child.match? = some g at hgroup
        simp [hgroup]

end Trie

namespace Registry

variable {r : Registry η} {log : List (Entry η)}

/-- What a scope finds by itself, as a group. -/
def group? (r : Registry η) (k : Scope) : Option (ActionGroup η) :=
  (r.find? k).map fun entries => { scope := k, entries }

theorem Records.groupAt_eq (h : r.Records log) (k : Scope) : r.root.groupAt k.segments = r.group? k := by
  change _ = Option.map _ (Option.map _ (r.root.groupAt k.segments))
  cases hg : r.root.groupAt k.segments with
  | none => rfl
  | some g =>
    obtain rfl := Scope.segments_inj.1 (h.groupAt.1 hg).1
    rfl

/-- The descent finds what the scope and its parents find one by one. -/
theorem Records.ancestors_eq (h : r.Records log) (k : Scope) : r.ancestors k = k.selfAndAncestors.filterMap r.group? := by
  have hgroups : k.selfAndAncestors.filterMap r.group? =
      (k.selfAndAncestors.map Scope.segments).filterMap r.root.groupAt := by
    rw [List.filterMap_map]
    apply List.filterMap_congr
    intro a _
    exact (h.groupAt_eq a).symm
  rw [hgroups, Scope.map_segments_selfAndAncestors, List.filterMap_reverse, ancestors, Trie.along_eq]

/-- A scope finds some action under a policy exactly if it resolves to some. -/
theorem finds_iff (r : Registry η) (k : Scope) (policy : Resolution) :
    r.finds k policy = true ↔ r.resolve k policy ≠ [] := by
  cases policy with
  | exact =>
    unfold finds resolve find?
    cases (r.root.find? k.segments).bind Trie.match? <;> simp
  | mostSpecific =>
    unfold finds resolve
    cases r.ancestors k <;> simp
  | allAncestors =>
    unfold finds resolve
    cases r.ancestors k <;> simp

/-- After any calls, the actions of a scope and its ancestors are those that the scope, its parent, the parent of that
and so on find by themselves, where something is registered on them. These are what the policy of all ancestors gives;
that of the most specific gives the first of them, and the exact one what the scope itself finds. Under each policy a
scope finds actions exactly if it is given some. -/
theorem attemptAll_ancestors (calls : List (Registration η)) (k : Scope) :
    let answers := ((empty : Registry η).attemptAll calls).1
    let r := ((empty : Registry η).attemptAll calls).2
    let registered := (accepted answers).map (·.scope)
    let found := k.selfAndAncestors.filterMap r.group?
    (∀ a, (r.group? a).isSome ↔ a ∈ registered) ∧
    found.map (·.scope) = k.selfAndAncestors.filter (· ∈ registered) ∧
    r.ancestors k = found ∧
    r.resolve k .allAncestors = found ∧
    r.resolve k .mostSpecific = found.head?.toList ∧
    r.resolve k .exact = (r.group? k).toList ∧
    ∀ policy, r.finds k policy = true ↔ r.resolve k policy ≠ [] := by
  intro answers r registered found
  have hlog : r.Records (accepted answers) := (counts_empty.attemptAll calls).2.records
  have hancestors : r.ancestors k = found := hlog.ancestors_eq k
  have hregistered : ∀ a, (r.group? a).isSome ↔ a ∈ registered := by
    intro a
    rw [group?, Option.isSome_map, hlog.isSome_find?, List.mem_map]
  have hscopes : ∀ a, (r.group? a).map (·.scope) = Option.guard (· ∈ registered) a := by
    intro a
    simp only [Option.guard, decide_eq_true_eq]
    rw [← if_congr (hregistered a) rfl rfl, group?]
    cases r.find? a <;> rfl
  refine ⟨hregistered, ?_, hancestors, hancestors, ?_, ?_, r.finds_iff k⟩
  · change List.map _ (List.filterMap _ _) = _
    rw [List.map_filterMap]
    simp only [hscopes]
    rw [List.filterMap_eq_filter]
  · rw [← hancestors]
    change (r.ancestors k).take 1 = _
    cases r.ancestors k <;> rfl
  · change (r.root.groupAt k.segments).toList = _
    rw [hlog.groupAt_eq]

end Registry

end ScopeActions
