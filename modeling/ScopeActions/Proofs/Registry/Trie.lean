import ScopeActions.Proofs.Registry.Scope
import ScopeActions.Registry
/-!
# Tries of actions

A trie is seen through the actions at the end of each path (`Trie.entriesAt`). Insertion appends to one of
these lists and leaves all others. In a trie that is well formed the node at the end of a path has the scope of
that path exactly when it has actions, so that what a look-up finds and what a collection finds are the same
groups (`Trie.WellFormed.mem_collect`), each of them once (`Trie.WellFormed.nodup_collect`).
-/

namespace ScopeActions

namespace Trie

variable {η : Type} {n : Trie η} {path rest : List String} {e : Entry η} {g : ActionGroup η}

/-- The actions at the end of a path; none where there is no node. -/
def entriesAt (n : Trie η) (path : List String) : List (Entry η) :=
  ((n.find? path).map entries).getD []

/-- The actions at the end of a path with their scope. -/
def groupAt (n : Trie η) (path : List String) : Option (ActionGroup η) :=
  (n.find? path).bind match?

theorem find?_cons (n : Trie η) (s : String) (path : List String) :
    n.find? (s :: path) = (Assoc.get? n.children s).bind (find? path) := rfl

theorem find?_append (n : Trie η) (path rest : List String) :
    n.find? (path ++ rest) = (n.find? path).bind (find? rest) := by
  induction path generalizing n with
  | nil => rfl
  | cons s path ih =>
    rw [List.cons_append, find?_cons, find?_cons, Option.bind_assoc]
    exact Option.bind_congr fun child _ => ih child

theorem entriesAt_cons (n : Trie η) (s : String) (path : List String) :
    n.entriesAt (s :: path) = ((Assoc.get? n.children s).map fun child => child.entriesAt path).getD [] := by
  rw [entriesAt, find?_cons]
  cases Assoc.get? n.children s <;> rfl

theorem entriesAt_empty (path : List String) : (empty : Trie η).entriesAt path = [] := by
  cases path <;> rfl

/-- Insertion appends at the end of its path and touches nothing else. -/
theorem entriesAt_insert (e : Entry η) (path path' : List String) (n : Trie η) :
    (n.insert e path).entriesAt path' =
      if path' = path then n.entriesAt path ++ [e] else n.entriesAt path' := by
  induction path generalizing n path' with
  | nil =>
    obtain ⟨key, entries, children⟩ := n
    cases path' <;> rfl
  | cons s path ih =>
    obtain ⟨key, entries, children⟩ := n
    cases path' with
    | nil => rfl
    | cons s' path' =>
      rw [insert, entriesAt_cons, entriesAt_cons, entriesAt_cons]
      simp only [Trie.children, Assoc.get?_put, List.cons.injEq]
      by_cases hs : s = s'
      · subst hs
        cases hchild : Assoc.get? children s with
        | none => simp [ih, entriesAt_empty]
        | some child => simp [ih]
      · simp [hs, Ne.symm hs]

/-! ## Well-formed tries -/

/-- The trie stands at the end of `path` and each of its nodes that holds actions holds the scope of its own path
and actions on that scope; no segment leads to two children. -/
inductive WellFormed : List String → Trie η → Prop
  | mk {path : List String} {key : Option Scope} {entries : List (Entry η)} {children : List (String × Trie η)} :
      (∀ k, key = some k → k.segments = path) → (key.isSome ↔ entries ≠ []) → (∀ e ∈ entries, key = some e.scope) →
      (Assoc.keys children).Nodup → (∀ b ∈ children, WellFormed (path ++ [b.1]) b.2) →
      WellFormed path (.mk key entries children)

theorem wellFormed_empty (path : List String) : (empty : Trie η).WellFormed path :=
  .mk nofun (by simp) nofun List.nodup_nil nofun

theorem WellFormed.child {s : String} {child : Trie η} (h : n.WellFormed path) (hc : Assoc.get? n.children s = some child) :
    child.WellFormed (path ++ [s]) := by
  cases h with
  | mk _ _ _ _ hchildren => exact hchildren _ (Assoc.mem_of_get? hc)

theorem WellFormed.find? {m : Trie η} (h : n.WellFormed path) (hm : n.find? rest = some m) :
    m.WellFormed (path ++ rest) := by
  induction rest generalizing n path with
  | nil =>
    obtain rfl : n = m := Option.some.inj hm
    rwa [List.append_nil]
  | cons s rest ih =>
    obtain ⟨child, hc, hm⟩ := Option.bind_eq_some_iff.1 hm
    rw [List.append_cons]
    exact ih (h.child hc) hm

theorem WellFormed.insert (h : n.WellFormed path) (he : e.scope.segments = path ++ rest) :
    (n.insert e rest).WellFormed path := by
  induction rest generalizing n path with
  | nil =>
    rw [List.append_nil] at he
    cases h with
    | @mk _ key entries children hkey hsome hentries hnodup hchildren =>
      have hk : ∀ k, key = some k → k = e.scope := fun k hk => Scope.segments_inj.1 ((hkey k hk).trans he.symm)
      have hscope : some (key.getD e.scope) = some e.scope := by
        cases key with
        | none => rfl
        | some k => rw [Option.getD_some, hk k rfl]
      refine .mk ?_ ?_ ?_ hnodup hchildren
      · intro k hs
        rw [hscope, Option.some.injEq] at hs
        exact hs ▸ he
      · simp
      · intro e' he'
        rw [hscope]
        rcases List.mem_append.1 he' with h | h
        · rw [← hk _ (hentries e' h)]
        · rw [List.mem_singleton.1 h]
  | cons s rest ih =>
    have hrest : e.scope.segments = path ++ [s] ++ rest := by rw [he, List.append_assoc, List.singleton_append]
    have hchild : ((Assoc.get? n.children s).getD empty).WellFormed (path ++ [s]) := by
      cases hc : Assoc.get? n.children s with
      | none => exact wellFormed_empty _
      | some child => exact h.child hc
    cases h with
    | @mk _ key entries children hkey hsome hentries hnodup hchildren =>
      refine .mk hkey hsome hentries (Assoc.nodup_keys_put hnodup s _) fun b hb => ?_
      rcases Assoc.mem_put hb with hb | rfl
      · exact hchildren b hb
      · exact ih hchild hrest

/-! ## Groups -/

theorem match?_eq_some : n.match? = some g ↔ n.key = some g.scope ∧ n.entries = g.entries ∧ g.entries ≠ [] := by
  obtain ⟨key, entries, children⟩ := n
  obtain ⟨scope, es⟩ := g
  unfold match?
  rcases key with _ | k
  · simp [Trie.key]
  · rcases entries with _ | ⟨e, entries⟩
    · simp +contextual [Trie.key, Trie.entries, eq_comm]
    · simp only [Trie.key, Trie.entries, Option.some.injEq, ActionGroup.mk.injEq]
      refine and_congr_right fun _ => ⟨fun h => ⟨h, h ▸ List.cons_ne_nil _ _⟩, fun h => h.1⟩

/-- The group at the end of a path has the scope of that path and the actions there. -/
theorem WellFormed.groupAt_eq_some (h : n.WellFormed path) :
    n.groupAt rest = some g ↔ g.scope.segments = path ++ rest ∧ n.entriesAt rest = g.entries ∧ g.entries ≠ [] := by
  unfold groupAt entriesAt
  cases hm : n.find? rest with
  | none => simp +contextual [eq_comm]
  | some m =>
    rw [Option.bind_some, Option.map_some, Option.getD_some, match?_eq_some]
    cases h.find? hm with
    | @mk _ key entries children hkey hsome hentries =>
      refine and_congr_left fun ⟨he, hne⟩ => ⟨hkey _, fun hs => ?_⟩
      change entries = g.entries at he
      obtain ⟨k, hk⟩ := Option.isSome_iff_exists.1 (hsome.2 (he ▸ hne))
      change key = some g.scope
      rw [hk, Scope.segments_inj.1 ((hkey k hk).trans hs.symm)]

theorem collectChildren_eq (children : List (String × Trie η)) :
    collectChildren children = children.flatMap fun b => b.2.collect := by
  induction children with
  | nil => rfl
  | cons b children ih => rw [collectChildren, List.flatMap_cons, ih]

theorem mem_collect_mk {key : Option Scope} {entries : List (Entry η)} {children : List (String × Trie η)} :
    g ∈ (mk key entries children).collect ↔
      (mk key entries children).match? = some g ∨ ∃ b ∈ children, g ∈ b.2.collect := by
  rw [collect, collectChildren_eq, List.mem_append, List.mem_flatMap, Option.mem_toList]
  rfl

theorem mem_collect_of_groupAt (h : n.groupAt path = some g) : g ∈ n.collect := by
  induction path generalizing n with
  | nil =>
    obtain ⟨key, entries, children⟩ := n
    exact mem_collect_mk.2 (.inl h)
  | cons s path ih =>
    obtain ⟨key, entries, children⟩ := n
    obtain ⟨m, hm, hg⟩ := Option.bind_eq_some_iff.1 h
    obtain ⟨child, hc, hm⟩ := Option.bind_eq_some_iff.1 hm
    exact mem_collect_mk.2 (.inr ⟨_, Assoc.mem_of_get? hc, ih (Option.bind_eq_some_iff.2 ⟨m, hm, hg⟩)⟩)

/-- What is collected is what is found at the ends of paths. -/
theorem WellFormed.mem_collect (h : n.WellFormed path) : g ∈ n.collect ↔ ∃ rest, n.groupAt rest = some g := by
  induction h with
  | @mk path key entries children hkey hsome hentries hnodup hchildren ih =>
    rw [mem_collect_mk]
    constructor
    · rintro (h | ⟨b, hb, hg⟩)
      · exact ⟨[], h⟩
      · obtain ⟨rest, hr⟩ := (ih b hb).1 hg
        refine ⟨b.1 :: rest, ?_⟩
        rw [groupAt, find?_cons]
        have hb' : Assoc.get? children b.1 = some b.2 := Assoc.get?_of_mem hnodup hb
        rw [show (Trie.mk key entries children).children = children from rfl, hb']
        exact hr
    · rintro ⟨rest, hr⟩
      exact mem_collect_mk.1 (mem_collect_of_groupAt hr)

theorem WellFormed.scope_of_mem_collect (h : n.WellFormed path) (hg : g ∈ n.collect) : path <+: g.scope.segments := by
  obtain ⟨rest, hr⟩ := h.mem_collect.1 hg
  exact ⟨rest, (h.groupAt_eq_some.1 hr).1.symm⟩

/-- No scope is collected twice. -/
theorem WellFormed.nodup_collect (h : n.WellFormed path) : (n.collect.map (·.scope)).Nodup := by
  induction h with
  | @mk path key entries children hkey hsome hentries hnodup hchildren ih =>
    rw [collect, collectChildren_eq, List.map_append, List.nodup_append]
    refine ⟨?_, ?_, ?_⟩
    · cases (Trie.mk key entries []).match? <;> simp
    · rw [List.map_flatMap, List.nodup_iff_pairwise_ne, List.pairwise_flatMap]
      refine ⟨fun b hb => ih b hb, ?_⟩
      have hne : children.Pairwise fun b c => b.1 ≠ c.1 := List.pairwise_map.1 hnodup
      refine hne.imp_of_mem fun {b c} hb hc hbc x hx y hy hxy => hbc ?_
      obtain ⟨g, hg, rfl⟩ := List.mem_map.1 hx
      obtain ⟨g', hg', rfl⟩ := List.mem_map.1 hy
      -- the segments of one scope start with the paths of both children
      obtain ⟨r, hr⟩ := (hchildren b hb).scope_of_mem_collect hg
      obtain ⟨r', hr'⟩ := (hchildren c hc).scope_of_mem_collect hg'
      rw [← hxy, ← hr, List.append_assoc, List.append_assoc] at hr'
      simpa using (List.cons.inj (List.append_cancel_left hr')).1.symm
    · intro x hx y hy hxy
      obtain ⟨g, hg, rfl⟩ := List.mem_map.1 hx
      obtain ⟨g', hg', rfl⟩ := List.mem_map.1 hy
      obtain ⟨b, hb, hg'⟩ := List.mem_flatMap.1 hg'
      have hk : key = some g.scope := (match?_eq_some.1 (Option.mem_toList.1 hg)).1
      obtain ⟨r, hr⟩ := (hchildren b hb).scope_of_mem_collect hg'
      rw [← hxy, hkey _ hk] at hr
      simpa using congrArg List.length hr

end Trie

end ScopeActions
