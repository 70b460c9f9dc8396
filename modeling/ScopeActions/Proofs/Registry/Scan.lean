import ScopeActions.Proofs.Registry.Ancestry
import ScopeActions.Proofs.Text.Bytes
import ScopeActions.Proofs.Text.Order
import Mathlib.Data.List.Perm.Basic
/-!
# Scans

A scan collects the groups of one subtree and sorts them. It comes to the registered scopes that start with its text, in
order, with what each of them finds (`Registry.attemptAll_scan`), in whatever order the children of a node are visited
(`Trie.Visits`).
-/

namespace ScopeActions

variable {η : Type}

/-! ## Traversals -/

namespace Trie

/-- The groups that a traversal meets: that of the node, then those of its children, which it comes to in any order. -/
inductive Visits : Trie η → List (ActionGroup η) → Prop
  | mk {key : Option Scope} {entries : List (Entry η)} {children order : List (String × Trie η)}
      {visit : String × Trie η → List (ActionGroup η)} : order.Perm children → (∀ b ∈ children, Visits b.2 (visit b)) →
      Visits (.mk key entries children) ((Trie.mk key entries []).match?.toList ++ order.flatMap visit)

/-- Each traversal meets the same groups. -/
theorem Visits.perm {n : Trie η} {found : List (ActionGroup η)} (h : n.Visits found) : found.Perm n.collect := by
  induction h with
  | @mk key entries children order visit horder _ ih =>
    rw [collect, collectChildren_eq]
    apply List.Perm.append_left
    calc order.flatMap visit
        |>.Perm (children.flatMap visit) := horder.flatMap_right visit
      _ |>.Perm (children.flatMap fun b => b.2.collect) := List.Perm.flatMap_left children ih

/-- Collecting is one of the traversals. -/
theorem visits_collect : (n : Trie η) → n.Visits n.collect
  | .mk key entries children => by
    have hchildren : ∀ b ∈ children, b.2.Visits b.2.collect := fun b _ => visits_collect b.2
    rw [collect, collectChildren_eq]
    exact .mk (.refl children) hchildren
termination_by n => sizeOf n
decreasing_by
  have hsize : sizeOf b < sizeOf children := List.sizeOf_lt_of_mem ‹_›
  obtain ⟨s, child⟩ := b
  simp only [Prod.mk.sizeOf_spec, mk.sizeOf_spec] at hsize ⊢
  omega

end Trie

namespace Registry

variable {r : Registry η} {log : List (Entry η)} {g : ActionGroup η} {start : String}

/-! ## What a scan finds -/

/-- The node that a scan begins at. -/
def node? (r : Registry η) (start : String) : Option (Trie η) :=
  if start = "" then some r.root else (Scope.parse? start).bind fun k => r.root.find? k.segments

/-- The groups below the node that a scan begins at. -/
def below (r : Registry η) (start : String) : List (ActionGroup η) :=
  ((r.node? start).map Trie.collect).getD []

theorem scan_eq (r : Registry η) (start : String) : r.scan start = Text.sortBy (·.scope.text) (r.below start) :=
  rfl

/-- A scan begins at the end of a path, or nowhere if its text is malformed. -/
theorem node?_cases (r : Registry η) (start : String) :
    (start = "" ∧ r.node? start = r.root.find? []) ∨
    (∃ s : Scope, s.text = start ∧ start ≠ "" ∧ r.node? start = r.root.find? s.segments) ∨
    (start ≠ "" ∧ Scope.parse? start = none ∧ r.node? start = none) := by
  unfold node?
  by_cases hempty : start = ""
  · rw [if_pos hempty]
    exact .inl ⟨hempty, rfl⟩
  · rw [if_neg hempty]
    cases hparse : Scope.parse? start with
    | none => exact .inr (.inr ⟨hempty, rfl, rfl⟩)
    | some s => exact .inr (.inl ⟨s, Scope.parse?_eq_some.1 hparse, hempty, rfl⟩)

theorem Records.group?_eq_some (h : r.Records log) :
    r.group? g.scope = some g ↔ (log.filter fun e => e.scope = g.scope) = g.entries ∧ g.entries ≠ [] := by
  rw [← h.groupAt_eq, h.groupAt]
  exact and_iff_right rfl

/-- What a scope finds under a policy is registered. -/
theorem mem_entries_of_mem_resolve {k : Scope} {policy : Resolution} {e : Entry η} (hg : g ∈ r.resolve k policy)
    (he : e ∈ g.entries) : e ∈ r.entries := by
  obtain ⟨path, -, hpath⟩ := exists_groupAt_of_mem_resolve hg
  refine List.mem_flatMap.2 ⟨g, ?_, he⟩
  rw [scan_eq, Text.mem_sortBy]
  exact Trie.mem_collect_of_groupAt hpath

/-- A scope is scanned for if the text is empty or the scope starts with it. -/
def Listed (start : String) (k : Scope) : Prop :=
  start = "" ∨ k.startsWith start = true

instance (start : String) (k : Scope) : Decidable (Listed start k) :=
  inferInstanceAs (Decidable (_ ∨ _))

theorem Records.mem_scanned (h : r.Records log) : g ∈ r.below start ↔ r.group? g.scope = some g ∧ Listed start g.scope := by
  rw [h.group?_eq_some, below]
  rcases r.node?_cases start with ⟨rfl, hnode⟩ | ⟨s, rfl, hne, hnode⟩ | ⟨hne, hparse, hnode⟩
  · have hlisted : Listed "" g.scope := .inl rfl
    rw [hnode, h.mem_below, and_iff_right List.nil_prefix, and_iff_left hlisted]
  · have hlisted : Listed s.text g.scope ↔ s.segments <+: g.scope.segments := by
      rw [Listed, or_iff_right hne, Scope.startsWith_iff]
      constructor
      · rintro ⟨s', hs, hprefix⟩
        rwa [Scope.text_inj.1 hs] at hprefix
      · intro hprefix
        exact ⟨s, rfl, hprefix⟩
    rw [hnode, h.mem_below, hlisted, and_comm]
  · have hlisted : ¬Listed start g.scope := by
      rw [Listed, or_iff_right hne, Scope.startsWith_iff]
      rintro ⟨s, hs, -⟩
      rw [Scope.parse?_eq_some.2 hs] at hparse
      cases hparse
    rw [hnode]
    simp [hlisted]

theorem Records.nodup_scanned (h : r.Records log) (start : String) : ((r.below start).map (·.scope)).Nodup := by
  unfold below
  rcases r.node?_cases start with ⟨-, hnode⟩ | ⟨s, -, -, hnode⟩ | ⟨-, -, hnode⟩
  · rw [hnode]
    exact h.nodup_below []
  · rw [hnode]
    exact h.nodup_below s.segments
  · rw [hnode]
    exact List.nodup_nil

theorem Records.nodup_texts (h : r.Records log) (start : String) : ((r.below start).map (·.scope.text)).Nodup := by
  have htexts : (r.below start).map (·.scope.text) = ((r.below start).map (·.scope)).map Scope.text :=
    (List.map_map ..).symm
  rw [htexts]
  exact (h.nodup_scanned start).map fun _ _ => Scope.text_inj.1

/-- The scopes of a scan are the sorted ones among those that something is registered on. -/
theorem Records.scopes_scan (h : r.Records log) (start : String) :
    (r.scan start).map (·.scope) =
      Text.sortBy Scope.text ((log.map (·.scope)).dedup.filter fun k => Listed start k) := by
  have hsort : (r.scan start).map (·.scope) = Text.sortBy Scope.text ((r.below start).map (·.scope)) :=
    List.map_mergeSort fun _ _ _ _ => rfl
  rw [hsort]
  apply Text.sortBy_eq_of_perm
  · apply (List.perm_ext_iff_of_nodup (h.nodup_scanned start) ((List.nodup_dedup _).filter _)).2
    intro k
    have hknown : k ∈ log.map (·.scope) ↔ ∃ g, r.group? k = some g ∧ g.scope = k := by
      rw [List.mem_map, ← h.isSome_find?, Option.isSome_iff_exists]
      constructor
      · rintro ⟨es, hes⟩
        exact ⟨⟨k, es⟩, by rw [group?, hes]; rfl, rfl⟩
      · rintro ⟨g, hg, -⟩
        obtain ⟨es, hes, -⟩ := Option.map_eq_some_iff.1 hg
        exact ⟨es, hes⟩
    simp only [List.mem_map, List.mem_filter, List.mem_dedup, decide_eq_true_eq, h.mem_scanned]
    rw [← List.mem_map, hknown]
    constructor
    · rintro ⟨g, ⟨hg, hlisted⟩, rfl⟩
      exact ⟨⟨g, hg, rfl⟩, hlisted⟩
    · rintro ⟨⟨g, hg, rfl⟩, hlisted⟩
      exact ⟨g, ⟨hg, hlisted⟩, rfl⟩
  · rw [List.map_map]
    exact h.nodup_texts start

/-- A scan gives each of its scopes with what the scope finds by itself. -/
theorem Records.scan_eq_filterMap (h : r.Records log) (start : String) :
    r.scan start = ((r.scan start).map (·.scope)).filterMap r.group? := by
  have hgroups : ∀ g ∈ r.scan start, (r.group? ∘ (·.scope)) g = some g := by
    intro g hg
    exact (h.mem_scanned.1 (Text.mem_sortBy.1 hg)).1
  rw [List.filterMap_map, List.filterMap_congr hgroups]
  exact (List.filterMap_some ..).symm

/-- The entries of a scan are those of the log that it is for, by scope and then by registration. -/
theorem Records.entries_scan (h : r.Records log) (start : String) :
    (r.scan start).flatMap (·.entries) = Text.sortBy (·.scope.text) (log.filter fun e => Listed start e.scope) := by
  have hgroup : ∀ g ∈ r.scan start, (log.filter fun e => e.scope = g.scope) = g.entries := by
    intro g hg
    exact (h.group?_eq_some.1 (h.mem_scanned.1 (Text.mem_sortBy.1 hg)).1).1
  have hscope : ∀ g ∈ r.scan start, ∀ e ∈ g.entries, e.scope = g.scope := by
    intro g hg e he
    rw [← hgroup g hg] at he
    exact of_decide_eq_true (List.mem_filter.1 he).2
  have hle : (r.scan start).Pairwise fun g g' => g.scope.text ≤ g'.scope.text := Text.pairwise_sortBy _ (r.below start)
  have hlisted : (log.filter fun e => e.scope ∈ (r.scan start).map (·.scope)) = log.filter fun e => Listed start e.scope := by
    apply List.filter_congr
    intro e he
    rw [decide_eq_decide, h.scopes_scan, Text.mem_sortBy, List.mem_filter, List.mem_dedup, decide_eq_true_eq]
    exact and_iff_right (List.mem_map_of_mem he)
  apply Text.eq_sortBy
  · rw [List.pairwise_flatMap]
    constructor
    · intro g hg
      apply List.pairwise_of_forall_mem_list
      intro e he e' he'
      have hsame : e.scope = e'.scope := (hscope g hg e he).trans (hscope g hg e' he').symm
      exact hsame ▸ String.le_refl e.scope.text
    · apply hle.imp_of_mem
      intro g g' hg hg' hle e he e' he'
      rwa [hscope g hg e he, hscope g' hg' e' he']
  · intro s
    by_cases hs : ∃ k : Scope, k.text = s
    · obtain ⟨k, rfl⟩ := hs
      have hks : ((r.scan start).map (·.scope)).Nodup :=
        ((Text.sortBy_perm _ (r.below start)).map (·.scope)).nodup_iff.2 (h.nodup_scanned start)
      simp only [Scope.text_inj]
      rw [flatMap_entries hgroup, filter_flatMap_filter Entry.scope log hks k, hlisted]
    · -- no entry has this text
      have hnone : ∀ es : List (Entry η), es.filter (fun e => e.scope.text = s) = [] := by
        intro es
        rw [List.filter_eq_nil_iff]
        intro e _ he
        exact hs ⟨e.scope, of_decide_eq_true he⟩
      rw [hnone, hnone]

/-- The second list has the entries of the first by scope, in the order of bytes. Those on one scope stay in order. -/
structure Arranges (log es : List (Entry η)) : Prop where
  perm : es.Perm log
  sorted : es.Pairwise fun e e' => e.scope = e'.scope ∨ Text.bytes e.scope.text < Text.bytes e'.scope.text
  stable : ∀ k : Scope, (es.filter fun e => e.scope = k) = log.filter fun e => e.scope = k

theorem arranges_sortBy (log : List (Entry η)) : Arranges log (Text.sortBy (·.scope.text) log) where
  perm := Text.sortBy_perm _ log
  sorted := by
    apply (Text.pairwise_sortBy (fun e : Entry η => e.scope.text) log).imp
    intro e e' hle
    by_cases heq : e.scope.text = e'.scope.text
    · exact .inl (Scope.text_inj.1 heq)
    · exact .inr (Text.bytes_lt (Text.lt_of_le_of_ne hle heq))
  stable := by
    intro k
    simpa only [Scope.text_inj] using Text.filter_sortBy (fun e : Entry η => e.scope.text) log k.text

/-- After any calls, a scan lists the registered scopes that start with its text, all of them where it is empty, each
once and with what it finds by itself, in the order of their bytes. A malformed text that is not empty gives nothing. In
whatever order the children of a node are visited, the scan is the same. The scopes and the entries of the registry are
those of the scan of everything. -/
theorem attemptAll_scan (calls : List (Registration η)) (start : String) :
    let answers := ((empty : Registry η).attemptAll calls).1
    let r := ((empty : Registry η).attemptAll calls).2
    let registered := (accepted answers).map (·.scope)
    r.scan start = (Text.sortBy Scope.text (registered.dedup.filter fun k => Listed start k)).filterMap r.group? ∧
    ((r.scan start).Pairwise fun g g' => Text.bytes g.scope.text < Text.bytes g'.scope.text) ∧
    (∀ g, g ∈ r.scan start ↔ r.find? g.scope = some g.entries ∧ Listed start g.scope) ∧
    (∀ k, (r.find? k).isSome ↔ k ∈ registered) ∧
    (start ≠ "" → Scope.Malformed start → r.scan start = []) ∧
    (∀ n found, r.node? start = some n → n.Visits found → Text.sortBy (·.scope.text) found = r.scan start) ∧
    r.scopes = (r.scan "").map (·.scope) ∧ r.entries = (r.scan "").flatMap (·.entries) := by
  intro answers r registered
  have hlog : r.Records (accepted answers) := (counts_empty.attemptAll calls).2.records
  have hgroup : ∀ g : ActionGroup η, r.group? g.scope = some g ↔ r.find? g.scope = some g.entries := by
    intro g
    rw [group?, Option.map_eq_some_iff]
    constructor
    · rintro ⟨es, hes, hg⟩
      rw [hes, ← hg]
    · intro hes
      exact ⟨g.entries, hes, rfl⟩
  refine ⟨?_, ?_, ?_, ?_, ?_, ?_, rfl, rfl⟩
  · rw [hlog.scan_eq_filterMap, hlog.scopes_scan]
  · apply (Text.pairwise_lt_sortBy (hlog.nodup_texts start)).imp
    intro g g' hlt
    exact Text.bytes_lt hlt
  · intro g
    rw [scan_eq, Text.mem_sortBy, hlog.mem_scanned, hgroup]
  · intro k
    rw [hlog.isSome_find?, List.mem_map]
  · intro hne hmalformed
    rcases r.node?_cases start with ⟨hempty, -⟩ | ⟨s, rfl, -, -⟩ | ⟨-, -, hnode⟩
    · exact absurd hempty hne
    · exact absurd hmalformed s.not_malformed_text
    · rw [scan_eq, below, hnode]
      exact List.mergeSort_nil
  · intro n found hnode hvisits
    have hbelow : r.below start = n.collect := by
      rw [below, hnode]
      rfl
    have hperm : (r.below start).Perm found := hbelow ▸ hvisits.perm.symm
    exact (Text.sortBy_eq_of_perm hperm (hlog.nodup_texts start)).symm

/-- Scopes that are not registered in their order, one below the other two segments up. -/
def unsorted : List (Registration Unit) :=
  [⟨"b", "one", ()⟩, ⟨"a.c.d", "two", ()⟩, ⟨"a", "three", ()⟩]

theorem attemptAll_scan_unsorted :
    let r := ((empty : Registry Unit).attemptAll unsorted).2
    "a." ≠ "" ∧ Scope.Malformed "a." ∧ r.scan "a." = [] ∧
    ∃ found, (∃ n, r.node? "" = some n ∧ n.Visits found) ∧
      found.map (·.scope.text) = ["a", "a.c.d", "b"] ∧ Text.sortBy (·.scope.text) found = r.scan "" := by
  intro r
  have hmalformed : Scope.Malformed "a." := by decide +kernel
  obtain ⟨-, -, -, -, hnothing, -⟩ := attemptAll_scan unsorted "a."
  obtain ⟨-, -, -, -, -, hvisits, -⟩ := attemptAll_scan unsorted ""
  -- from the last child of the root to the first
  have hroot : r.root.Visits (r.root.match?.toList ++ r.root.children.reverse.flatMap fun b => b.2.collect) :=
    .mk (List.reverse_perm _) fun b _ => Trie.visits_collect b.2
  refine ⟨by decide, hmalformed, hnothing (by decide) hmalformed, _, ⟨_, rfl, hroot⟩, ?_, hvisits _ _ rfl hroot⟩
  decide +kernel

end Registry

end ScopeActions
