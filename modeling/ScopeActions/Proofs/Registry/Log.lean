import Mathlib.Data.List.Basic
import ScopeActions.Proofs.Registry.Trie
/-!
# Registries as logs

A registry holds the log of all that was registered (`Registry.Records`): each look-up answers with those entries
of the log that are on the scopes asked for, in the order in which they were registered.
-/

namespace ScopeActions.Registry

variable {η : Type} {r r' : Registry η} {log : List (Entry η)} {e : Entry η} {g : ActionGroup η} {k : Scope}

/-- The registry holds what was registered, in this order. -/
structure Records (r : Registry η) (log : List (Entry η)) : Prop where
  trie : r.root.WellFormed []
  entriesAt : ∀ path, r.root.entriesAt path = log.filter fun e => e.scope.segments = path

theorem records_empty : (empty : Registry η).Records [] :=
  ⟨Trie.wellFormed_empty [], Trie.entriesAt_empty⟩

/-! ## Registration -/

theorem register_eq_ok {scope source : String} {handler : η} (h : r.register scope source handler = (.ok e, r')) :
    e.scope.text = scope ∧ e.source = source ∧ e.handler = handler ∧ r'.root = r.root.insert e e.scope.segments := by
  unfold register at h
  split at h
  · cases h
  · next key hkey =>
    cases h
    exact ⟨Scope.text_of_parse hkey, rfl, rfl, rfl⟩

/-- A call is refused for what is wrong with its scope, and leaves the registry as it is; or it registers an action. -/
theorem register_cases (r : Registry η) (scope source : String) (handler : η) :
    (∃ cause, Scope.parse scope = .error cause ∧
      r.register scope source handler = (.error { scope, source, cause }, r)) ∨
      ∃ e r', r.register scope source handler = (.ok e, r') := by
  unfold register
  cases hscope : Scope.parse scope with
  | error cause => exact .inl ⟨cause, rfl, rfl⟩
  | ok key => exact .inr ⟨_, _, rfl⟩

theorem Records.append (h : r.Records log) (hr : r'.root = r.root.insert e e.scope.segments) : r'.Records (log ++ [e]) := by
  constructor
  · rw [hr]
    exact h.trie.insert rfl
  · intro path
    rw [hr, Trie.entriesAt_insert, h.entriesAt, h.entriesAt, List.filter_append]
    by_cases hp : path = e.scope.segments
    · simp [hp]
    · simp [hp, Ne.symm hp]

/-- A run of registrations appends an entry for each of them. -/
theorem Records.registerAll {actions : List (String × String × η)} (h : r.Records log)
    (hr : r.registerAll actions = (.ok (), r')) :
    ∃ es, r'.Records (log ++ es) ∧ es.map (fun e => (e.scope.text, e.source, e.handler)) = actions := by
  induction actions generalizing r log with
  | nil =>
    cases hr
    exact ⟨[], by rwa [List.append_nil], rfl⟩
  | cons a actions ih =>
    obtain ⟨scope, source, handler⟩ := a
    unfold Registry.registerAll at hr
    split at hr
    · cases hr
    · next e r₁ hreg =>
      obtain ⟨hs, hsrc, hh, hroot⟩ := register_eq_ok hreg
      obtain ⟨es, hes, hmap⟩ := ih (h.append hroot) hr
      refine ⟨e :: es, by rwa [List.append_assoc, List.singleton_append] at hes, ?_⟩
      rw [List.map_cons, hmap, hs, hsrc, hh]

/-- Actions are registered one after the other, up to the first whose scope cannot be read. -/
theorem registerAll_cases (r : Registry η) (actions : List (String × String × η)) :
    (∃ r', r.registerAll actions = (.ok (), r') ∧ ∀ a ∈ actions, ∃ k : Scope, k.text = a.1) ∨
      ∃ a ∈ actions, ∃ cause r', Scope.parse a.1 = .error cause ∧
        r.registerAll actions = (.error { scope := a.1, source := a.2.1, cause }, r') := by
  induction actions generalizing r with
  | nil => exact .inl ⟨r, rfl, nofun⟩
  | cons a actions ih =>
    obtain ⟨scope, source, handler⟩ := a
    rw [registerAll]
    rcases r.register_cases scope source handler with ⟨cause, hcause, hr⟩ | ⟨e, r', hr⟩
    · rw [hr]
      exact .inr ⟨_, List.mem_cons_self, cause, r, hcause, rfl⟩
    · rw [hr]
      rcases ih r' with ⟨r'', hall, hscopes⟩ | ⟨a, ha, cause, r'', hcause, hall⟩
      · exact .inl ⟨r'', hall, List.forall_mem_cons.2 ⟨⟨e.scope, (register_eq_ok hr).1⟩, hscopes⟩⟩
      · exact .inr ⟨a, List.mem_cons_of_mem _ ha, cause, r'', hcause, hall⟩

/-! ## Look-ups -/

theorem filter_segments (log : List (Entry η)) (k : Scope) :
    (log.filter fun e => e.scope.segments = k.segments) = log.filter fun e => e.scope = k := by
  refine List.filter_congr fun e _ => ?_
  simp only [Scope.segments_inj]

/-- A scope that something is registered on has a group. -/
theorem filter_scope_ne_nil (he : e ∈ log) : (log.filter fun e' => e'.scope = e.scope) ≠ [] :=
  List.ne_nil_of_mem (List.mem_filter.2 ⟨he, decide_eq_true rfl⟩)

theorem Records.groupAt (h : r.Records log) {path : List String} :
    r.root.groupAt path = some g ↔
      g.scope.segments = path ∧ (log.filter fun e => e.scope = g.scope) = g.entries ∧ g.entries ≠ [] := by
  rw [h.trie.groupAt_eq_some, List.nil_append, h.entriesAt]
  refine and_congr_right fun hs => ?_
  rw [← hs, filter_segments]

/-- The actions that a scope finds by itself are those registered on it. -/
theorem Records.resolve_exact (h : r.Records log) (k : Scope) :
    (r.resolve k .exact).flatMap (·.entries) = log.filter fun e => e.scope = k := by
  change (r.root.groupAt k.segments).toList.flatMap _ = _
  cases hg : r.root.groupAt k.segments with
  | some g =>
    obtain ⟨hs, he, -⟩ := h.groupAt.1 hg
    simp [← he, Scope.segments_inj.1 hs]
  | none =>
    symm
    rw [Option.toList_none, List.flatMap_nil, ← Decidable.not_not (p := _ = []), ← ne_eq]
    intro hne
    have := h.groupAt (g := ⟨k, log.filter fun e => e.scope = k⟩).2 ⟨rfl, rfl, hne⟩
    rw [hg] at this
    cases this

theorem Records.isSome_find? (h : r.Records log) : (r.find? k).isSome ↔ ∃ e ∈ log, e.scope = k := by
  change ((r.root.groupAt k.segments).map _).isSome ↔ _
  rw [Option.isSome_map, Option.isSome_iff_exists]
  constructor
  · rintro ⟨g, hg⟩
    obtain ⟨hs, he, hne⟩ := h.groupAt.1 hg
    obtain ⟨e, hmem⟩ := List.exists_mem_of_ne_nil _ hne
    rw [← he, List.mem_filter, decide_eq_true_iff] at hmem
    exact ⟨e, hmem.1, hmem.2.trans (Scope.segments_inj.1 hs)⟩
  · rintro ⟨e, he, rfl⟩
    exact ⟨⟨e.scope, _⟩, h.groupAt.2 ⟨rfl, rfl, filter_scope_ne_nil he⟩⟩

theorem exists_groupAt_of_mem_along {path : List String} {n : Trie η} (hg : g ∈ n.along path) :
    ∃ start, start <+: path ∧ n.groupAt start = some g := by
  induction path generalizing n with
  | nil => cases hg
  | cons s path ih =>
    unfold Trie.along at hg
    split at hg
    · cases hg
    · next child hc =>
      have hcons : ∀ rest, n.groupAt (s :: rest) = child.groupAt rest := by
        intro rest
        rw [Trie.groupAt, Trie.find?_cons, hc]
        rfl
      rcases List.mem_append.1 hg with hg | hg
      · exact ⟨[s], List.cons_prefix_cons.2 ⟨rfl, List.nil_prefix⟩, (hcons []).trans (Option.mem_toList.1 hg)⟩
      · obtain ⟨start, hs, hgroup⟩ := ih hg
        exact ⟨s :: start, List.cons_prefix_cons.2 ⟨rfl, hs⟩, (hcons start).trans hgroup⟩

theorem exists_groupAt_of_mem_resolve {policy : Resolution} (hg : g ∈ r.resolve k policy) :
    ∃ start, start <+: k.segments ∧ r.root.groupAt start = some g := by
  cases policy with
  | exact => exact ⟨_, List.prefix_rfl, Option.mem_toList.1 hg⟩
  | mostSpecific => exact exists_groupAt_of_mem_along (List.mem_reverse.1 (List.mem_of_mem_take hg))
  | allAncestors => exact exists_groupAt_of_mem_along (List.mem_reverse.1 hg)

/-- A group that a scope finds is on the scope or an ancestor, and has its actions in order of registration. -/
theorem Records.of_mem_resolve (h : r.Records log) {policy : Resolution} (hg : g ∈ r.resolve k policy) :
    g.scope.segments <+: k.segments ∧ (log.filter fun e => e.scope = g.scope) = g.entries := by
  obtain ⟨start, hstart, hgroup⟩ := exists_groupAt_of_mem_resolve hg
  obtain ⟨hs, he, -⟩ := h.groupAt.1 hgroup
  exact ⟨hs.symm ▸ hstart, he⟩

/-! ## Scans -/

/-- The groups below the end of a path are those of the log whose scopes start with it. -/
theorem Records.mem_below (h : r.Records log) {path : List String} :
    g ∈ ((r.root.find? path).map Trie.collect).getD [] ↔
      path <+: g.scope.segments ∧ (log.filter fun e => e.scope = g.scope) = g.entries ∧ g.entries ≠ [] := by
  have hat : ∀ rest, r.root.groupAt (path ++ rest) = (r.root.find? path).bind fun n => n.groupAt rest := by
    intro rest
    rw [Trie.groupAt, Trie.find?_append, Option.bind_assoc]
    rfl
  have hgroup : (path <+: g.scope.segments ∧ (log.filter fun e => e.scope = g.scope) = g.entries ∧ g.entries ≠ []) ↔
      ∃ rest, r.root.groupAt (path ++ rest) = some g := by
    constructor
    · rintro ⟨⟨rest, hs⟩, hg⟩
      exact ⟨rest, h.groupAt.2 ⟨hs.symm, hg⟩⟩
    · rintro ⟨rest, hr⟩
      obtain ⟨hs, hg⟩ := h.groupAt.1 hr
      exact ⟨⟨rest, hs.symm⟩, hg⟩
  rw [hgroup]
  simp only [hat]
  cases hn : r.root.find? path with
  | none => simp
  | some n => exact (h.trie.find? hn).mem_collect

theorem Records.nodup_below (h : r.Records log) (path : List String) :
    ((((r.root.find? path).map Trie.collect).getD []).map (·.scope)).Nodup := by
  cases hn : r.root.find? path with
  | none => exact List.nodup_nil
  | some n => exact (h.trie.find? hn).nodup_collect

theorem scan_empty (r : Registry η) :
    (r.scan "").Perm (((r.root.find? []).map Trie.collect).getD []) :=
  List.mergeSort_perm ..

theorem scan_text (r : Registry η) (k : Scope) :
    (r.scan k.text).Perm (((r.root.find? k.segments).map Trie.collect).getD []) := by
  have hne : k.text ≠ "" := fun h => k.segments_ne_nil [] (by simp [h, Text.splitOn]) rfl
  unfold scan
  rw [if_neg hne, Scope.parse?_eq_some.2 rfl]
  exact List.mergeSort_perm ..

/-- The scopes of a registry are those that something is registered on. -/
theorem Records.mem_scopes (h : r.Records log) : k ∈ r.scopes ↔ ∃ e ∈ log, e.scope = k := by
  rw [scopes, List.mem_map]
  simp only [(scan_empty r).mem_iff, h.mem_below]
  constructor
  · rintro ⟨g, ⟨-, hg, hne⟩, rfl⟩
    obtain ⟨e, he⟩ := List.exists_mem_of_ne_nil _ hne
    rw [← hg, List.mem_filter, decide_eq_true_iff] at he
    exact ⟨e, he⟩
  · rintro ⟨e, he, rfl⟩
    exact ⟨⟨e.scope, log.filter fun e' => e'.scope = e.scope⟩, ⟨List.nil_prefix, rfl, filter_scope_ne_nil he⟩, rfl⟩

/-- The items with some keys, one key after the other, are all items that have one of them. -/
theorem flatMap_filter_perm {α κ : Type} [DecidableEq κ] (key : α → κ) (xs : List α) {ks : List κ} (hks : ks.Nodup) :
    (ks.flatMap fun k => xs.filter fun x => key x = k).Perm (xs.filter fun x => key x ∈ ks) := by
  induction ks with
  | nil => simp
  | cons k ks ih =>
    obtain ⟨hk, hks⟩ := List.nodup_cons.1 hks
    have hsplit := List.filter_append_perm (fun x => decide (key x = k)) (xs.filter fun x => key x ∈ k :: ks)
    rw [List.filter_filter, List.filter_filter] at hsplit
    rw [List.flatMap_cons]
    refine .trans ?_ hsplit
    have hown : xs.filter (fun x => decide (key x = k) && decide (key x ∈ k :: ks)) = xs.filter fun x => key x = k :=
      List.filter_congr fun x _ => by simp +contextual
    have hrest : xs.filter (fun x => (!decide (key x = k)) && decide (key x ∈ k :: ks)) =
        xs.filter fun x => key x ∈ ks := by
      refine List.filter_congr fun x _ => ?_
      by_cases hx : key x = k
      · simp [hx, hk]
      · simp [hx]
    rw [hown, hrest]
    exact (ih hks).append_left _

/-- The items with one of these keys stay in their order. -/
theorem filter_flatMap_filter {α κ : Type} [DecidableEq κ] (key : α → κ) (xs : List α) {ks : List κ} (hks : ks.Nodup)
    (k : κ) : (ks.flatMap fun k' => xs.filter fun x => key x = k').filter (fun x => key x = k) =
      (xs.filter fun x => key x ∈ ks).filter fun x => key x = k := by
  have hperm := (flatMap_filter_perm key xs hks).filter fun x => decide (key x = k)
  by_cases hk : k ∈ ks
  · have hall : (xs.filter fun x => key x ∈ ks).filter (fun x => key x = k) = xs.filter fun x => key x = k := by
      rw [List.filter_filter]
      apply List.filter_congr
      intro x _
      by_cases hx : key x = k
      · simp [hx, hk]
      · simp [hx]
    have hsub : (xs.filter fun x => key x = k).Sublist (ks.flatMap fun k' => xs.filter fun x => key x = k') :=
      List.sublist_flatten_of_mem (List.mem_map.2 ⟨k, hk, rfl⟩)
    have hsub := hsub.filter fun x => decide (key x = k)
    rw [List.filter_filter] at hsub
    simp only [Bool.and_self] at hsub
    rw [hall] at hperm ⊢
    exact (hsub.eq_of_length hperm.length_eq.symm).symm
  · have hnone : (xs.filter fun x => key x ∈ ks).filter (fun x => key x = k) = [] := by
      rw [List.filter_filter, List.filter_eq_nil_iff]
      intro x _ hx
      simp only [Bool.and_eq_true, decide_eq_true_eq] at hx
      exact hk (hx.1 ▸ hx.2)
    rw [hnone] at hperm ⊢
    exact hperm.eq_nil

/-- Groups that have all entries of the log on their scopes give these, scope by scope. -/
theorem flatMap_entries {gs : List (ActionGroup η)} (h : ∀ g ∈ gs, (log.filter fun e => e.scope = g.scope) = g.entries) :
    gs.flatMap (·.entries) = (gs.map (·.scope)).flatMap fun k => log.filter fun e => e.scope = k := by
  rw [List.flatMap_map]
  exact List.flatMap_congr fun g hg => (h g hg).symm

/-- What a scan from a scope finds are the entries on scopes that start with it. -/
theorem Records.scan_perm (h : r.Records log) (start : Scope) :
    ((r.scan start.text).flatMap (·.entries)).Perm (log.filter fun e => start.segments <+: e.scope.segments) := by
  have hscan := scan_text r start
  have hgroups : (r.scan start.text).flatMap (·.entries) =
      ((r.scan start.text).map (·.scope)).flatMap fun k => log.filter fun e => e.scope = k :=
    flatMap_entries fun g hg => (h.mem_below.1 (hscan.mem_iff.1 hg)).2.1
  have hmem : ∀ e ∈ log, e.scope ∈ (r.scan start.text).map (·.scope) ↔ start.segments <+: e.scope.segments := by
    intro e he
    rw [List.mem_map]
    simp only [hscan.mem_iff, h.mem_below]
    constructor
    · rintro ⟨g, ⟨hp, -⟩, hs⟩
      rwa [hs] at hp
    · intro hp
      exact ⟨⟨e.scope, log.filter fun e' => e'.scope = e.scope⟩, ⟨hp, rfl, filter_scope_ne_nil he⟩, rfl⟩
  have hperm := flatMap_filter_perm Entry.scope log ((hscan.map (·.scope)).nodup_iff.2 (h.nodup_below start.segments))
  rw [hgroups]
  refine hperm.trans (.of_eq (List.filter_congr fun e he => ?_))
  rw [decide_eq_decide]
  exact hmem e he

end ScopeActions.Registry
