import ScopeActions.Proofs.Grammar.Exact
/-!
# Pruning loses no scope

Where no grammar reaches itself through other grammars, a scope to keep that some rule reachable from a grammar
gives is given by a rule that is reachable after pruning, and pruning adds none
(`LoadedGrammars.prune_labels`).
-/

namespace ScopeActions

namespace Grammar

/-- The rules that can be reached from the root patterns of `g`, each in the grammar that it stands in: beneath
others, and through includes of entries and of other grammars. -/
inductive Reaches (look : String → Option Grammar) (g : Grammar) : Grammar → Rule → Prop
  | root {r : Rule} : r ∈ g.patterns → Reaches look g g r
  | child {h : Grammar} {r c : Rule} : Reaches look g h r → c ∈ r.children → Reaches look g h c
  | entry {h : Grammar} {r e : Rule} {n : String} : Reaches look g h r → r.inclusion? = some (.entry n) →
      Assoc.get? h.entries n = some e → Reaches look g h e
  | grammar {h h' : Grammar} {r x : Rule} {t : String} : Reaches look g h r → r.inclusion? = some (.grammar t) →
      look t = some h' → x ∈ h'.patterns → Reaches look g h' x

variable {look look' : String → Option Grammar} {gs : Assoc Grammar} {keep : ScopeSet} {g h : Grammar} {r : Rule}

/-- A rule that is reached is one that the root patterns of its grammar lead to. -/
theorem Reaches.leads (hr : g.Reaches look h r) : h.Leads r := by
  induction hr with
  | root hr => exact .root hr
  | child _ hc ih => exact ih.child hc
  | entry _ hi he ih => exact ih.entry hi he
  | grammar _ _ _ hx _ => exact .root hx

/-- What reaches something has a root pattern. -/
theorem Reaches.exists_pattern (hr : g.Reaches look h r) : ∃ x, x ∈ g.patterns := by
  induction hr with
  | root hr => exact ⟨_, hr⟩
  | child _ _ ih => exact ih
  | entry _ _ _ ih => exact ih
  | grammar _ _ _ _ ih => exact ih

/-- A grammar in which something is reached is pruned. -/
theorem Reaches.leaves (hr : g.Reaches look h r) (V : Verdicts) : h.leaves V = h.left V := by
  induction hr with
  | root hr => exact leaves_of_mem_patterns hr
  | child _ _ ih => exact ih
  | entry _ _ _ ih => exact ih
  | grammar _ _ _ hx _ => exact leaves_of_mem_patterns hx

/-- A rule that is reached in what is left was reached before, and had the same labels. -/
theorem Reaches.of_leaves {V : Verdicts} (hlook : ∀ t h, look' t = some h → ∃ f, look t = some f ∧ h = f.leaves V)
    (hr : (g.leaves V).Reaches look' h r) :
    ∃ f x, g.Reaches look f x ∧ h = f.leaves V ∧ r = x.restrict (V.sees (f.liveNames V)) := by
  have roots : ∀ (f : Grammar) (y : Rule), y ∈ (f.leaves V).patterns →
      ∃ x ∈ f.patterns, y = x.restrict (V.sees (f.liveNames V)) := by
    intro f y hy
    unfold Grammar.leaves at hy
    split at hy
    · rw [left, patterns_restrict] at hy
      obtain ⟨x, hx, rfl⟩ := List.mem_map.1 hy
      exact ⟨x, (List.mem_filter.1 hx).1, rfl⟩
    · next hf => simp [patterns, Option.not_isSome_iff_eq_none.1 hf] at hy
  induction hr with
  | root hr =>
    obtain ⟨x, hx, rfl⟩ := roots g _ hr
    exact ⟨g, x, .root hx, rfl, rfl⟩
  | child _ hc ih =>
    obtain ⟨f, x, hx, rfl, rfl⟩ := ih
    obtain ⟨d, hd, rfl⟩ := Rule.exists_of_mem_children_restrict hc
    exact ⟨f, d, hx.child hd, rfl, rfl⟩
  | entry _ hi he ih =>
    obtain ⟨f, x, hx, rfl, rfl⟩ := ih
    rw [hx.leaves V] at he
    obtain ⟨e, he', rfl⟩ := exists_of_get?_entries_left he
    exact ⟨f, e, hx.entry ((Rule.inclusion?_restrict x).symm.trans hi) he', rfl, rfl⟩
  | grammar _ hi hl hy ih =>
    obtain ⟨f, x, hx, rfl, rfl⟩ := ih
    obtain ⟨f', hf', rfl⟩ := hlook _ _ hl
    obtain ⟨z, hz, rfl⟩ := roots f' _ hy
    exact ⟨f', z, hx.grammar ((Rule.inclusion?_restrict x).symm.trans hi) hf' hz, rfl, rfl⟩

/-- A live rule that was reached is reached in what is left by the right verdicts. -/
theorem Reaches.leaves_right
    (hlook : ∀ t h, Assoc.get? gs t = some h → look' t = some (h.leaves (Verdicts.right gs keep)))
    (hr : g.Reaches (Assoc.get? gs) h r) (hlive : h.Live (Assoc.get? gs) keep r) :
    (g.leaves (Verdicts.right gs keep)).Reaches look' (h.leaves (Verdicts.right gs keep))
      (r.restrict ((Verdicts.right gs keep).sees (h.liveNames (Verdicts.right gs keep)))) := by
  have roots : ∀ (f : Grammar) (x : Rule), x ∈ f.patterns → f.Live (Assoc.get? gs) keep x →
      x.restrict ((Verdicts.right gs keep).sees (f.liveNames (Verdicts.right gs keep))) ∈
        (f.leaves (Verdicts.right gs keep)).patterns := by
    intro f x hx hl
    rw [leaves_of_mem_patterns hx]
    exact restrict_mem_patterns_left hx (live_iff_liveIn.2 hl)
  -- every rule on the way to a live rule is live, so the whole way is left
  induction hr with
  | root hr => exact .root (roots g _ hr hlive)
  | child hr hc ih =>
    exact (ih (hlive.child hc)).child (Rule.restrict_mem_children hc ((sees_iff_live (hr.leads.child hc)).2 hlive))
  | @entry h r e n hr hi he ih =>
    refine (ih (.entry hi he hlive)).entry ((Rule.inclusion?_restrict r).trans hi) ?_
    have hn : n ∈ h.liveNames (Verdicts.right gs keep) := mem_liveNames_right.2 ⟨⟨r, hr.leads, hi⟩, e, he, hlive⟩
    rw [hr.leaves]
    exact get?_entries_left_of_live hn he
  | @grammar h h' r x t hr hi hl hx ih =>
    refine (ih (.grammar hi hl hx hlive)).grammar ((Rule.inclusion?_restrict r).trans hi) (hlook t h' hl) ?_
    exact roots h' x hx hlive

end Grammar

namespace LoadedGrammars

/-- Where no grammar reaches itself through other grammars, the scopes to keep that the reachable rules of a
grammar give are the same before and after pruning. -/
theorem prune_labels (l : LoadedGrammars) (keep : ScopeSet) (hl : l.Distinct) (ha : Grammar.Acyclic l.get?) {s : String}
    {g : Grammar} (hg : l.get? s = some g) : ∃ g', (l.prune keep).2.get? s = some g' ∧ ∀ k ∈ keep,
      (∃ h r, g.Reaches l.get? h r ∧ k ∈ r.labels) ↔ ∃ h r, g'.Reaches (l.prune keep).2.get? h r ∧ k ∈ r.labels := by
  have hprune := get?_prune keep hl ha
  refine ⟨g.leaves (Verdicts.right l.current keep), by rw [hprune, hg, Option.map_some], fun k hk => ?_⟩
  constructor
  · rintro ⟨h, r, hr, hlabel⟩
    have hlook : ∀ t h, Assoc.get? l.current t = some h →
        (l.prune keep).2.get? t = some (h.leaves (Verdicts.right l.current keep)) := by
      intro t h ht
      rw [hprune, show l.get? t = some h from ht, Option.map_some]
    exact ⟨_, _, hr.leaves_right hlook (.label hlabel hk), (Rule.labels_restrict r).symm ▸ hlabel⟩
  · rintro ⟨h, r, hr, hlabel⟩
    have hlook : ∀ t h, (l.prune keep).2.get? t = some h →
        ∃ f, l.get? t = some f ∧ h = f.leaves (Verdicts.right l.current keep) := by
      intro t h ht
      rw [hprune] at ht
      obtain ⟨f, hf, rfl⟩ := Option.map_eq_some_iff.1 ht
      exact ⟨f, hf, rfl⟩
    obtain ⟨f, x, hx, -, rfl⟩ := hr.of_leaves hlook
    exact ⟨f, x, hx, Rule.labels_restrict x ▸ hlabel⟩

theorem chain_labels : ∃ g g', chain.get? "a" = some g ∧ (chain.prune ["k"]).2.get? "a" = some g' ∧ ∀ k ∈ ["k"],
    (∃ h r, g.Reaches chain.get? h r ∧ k ∈ r.labels) ↔
      ∃ h r, g'.Reaches (chain.prune ["k"]).2.get? h r ∧ k ∈ r.labels := by
  obtain ⟨g', hg', h⟩ := prune_labels chain ["k"] chain_distinct chain_acyclic (s := "a") rfl
  exact ⟨_, g', rfl, hg', h⟩

end LoadedGrammars

end ScopeActions
