import ScopeActions.Bundled
import ScopeActions.Proofs.Grammar.Labels
import ScopeActions.Proofs.Registry.Log
import ScopeActions.Session
/-!
# Pruning to the scopes of the actions

A session prunes to the scopes that actions are registered on. No label is lost that is such a scope
(`Session.prune_triggers`). A label that finds its actions only on an ancestor is no such scope, so it may be lost
(`Session.ancestral_lost`).
-/

namespace ScopeActions.Session

variable {s : Session}

/-- The scopes to keep are those that have actions themselves. -/
theorem mem_actionScopes {log : List (Entry (Handler (World Unit)))} (h : s.registry.Records log) {k : Scope} :
    k.text ∈ s.actionScopes ↔ (s.registry.find? k).isSome := by
  rw [actionScopes, ScopeSet.mem_ofList, List.mem_map, h.isSome_find?]
  simp only [Scope.text_inj, exists_eq_right]
  exact h.mem_scopes

/-- A rule that is reached and gives a scope to keep is reached after pruning. -/
theorem reaches_prune (l : LoadedGrammars) (keep : ScopeSet) (hl : l.Distinct) (ha : Grammar.Acyclic l.get?)
    {g h : Grammar} {r : Rule} {k : String} (hr : g.Reaches l.get? h r) (hk : k ∈ r.labels) (hkeep : k ∈ keep) :
    ∃ h' r', (g.leaves (Verdicts.right l.current keep)).Reaches (l.prune keep).2.get? h' r' ∧ k ∈ r'.labels := by
  have hlook : ∀ t f, Assoc.get? l.current t = some f →
      (l.prune keep).2.get? t = some (f.leaves (Verdicts.right l.current keep)) := by
    intro t f ht
    rw [LoadedGrammars.get?_prune keep hl ha, show l.get? t = some f from ht, Option.map_some]
  exact ⟨_, _, hr.leaves_right hlook (.label hk hkeep), (Rule.labels_restrict r).symm ▸ hk⟩

/-- Pruning to the scopes of the actions loses no label that finds actions registered on itself. By the exact policy
these are all labels that find actions. -/
theorem prune_triggers (s : Session) {actions : List (String × String × Handler (World Unit))}
    (hs : Registry.registerAll .empty actions = (.ok (), s.registry)) (policy : Resolution) (hl : s.grammars.Distinct)
    (ha : Grammar.Acyclic s.grammars.get?) {t : String} {g : Grammar} (hg : s.grammars.get? t = some g) :
    ∃ g', (s.grammars.prune s.actionScopes).2.get? t = some g' ∧
      ∀ k : Scope, s.registry.finds k policy = true → (policy ≠ .exact → (s.registry.find? k).isSome) →
        (∃ h r, g.Reaches s.grammars.get? h r ∧ k.text ∈ r.labels) →
        ∃ h r, g'.Reaches (s.grammars.prune s.actionScopes).2.get? h r ∧ k.text ∈ r.labels := by
  obtain ⟨log, hlog, -⟩ := Registry.records_empty.registerAll hs
  rw [List.nil_append] at hlog
  refine ⟨_, by rw [LoadedGrammars.get?_prune _ hl ha, hg, Option.map_some], ?_⟩
  rintro k hfinds hself ⟨h, r, hr, hk⟩
  have hfound : (s.registry.find? k).isSome := by
    cases policy with
    | exact => exact hfinds
    | mostSpecific => exact hself nofun
    | allAncestors => exact hself nofun
  exact reaches_prune s.grammars s.actionScopes hl ha hr hk ((mem_actionScopes hlog).2 hfound)

/-- A session that has loaded grammars and collects the tokens of a scope. -/
def collecting (scope : String) (grammars : LoadedGrammars) : Session where
  config := {}
  grammars
  registry := (Registry.registerAll .empty [(scope, Collector.collectorSource, Collector.collector)]).2
  libraries := .bundled
  files := .ofOpened []
  home := ""

theorem collecting_chain :
    let s := collecting "k" LoadedGrammars.chain
    ∃ g g' k, s.registry.finds k .allAncestors = true ∧ (s.registry.find? k).isSome ∧ s.grammars.get? "a" = some g ∧
      (∃ h r, g.Reaches s.grammars.get? h r ∧ k.text ∈ r.labels) ∧
      (s.grammars.prune s.actionScopes).2.get? "a" = some g' ∧
      ∃ h r, g'.Reaches (s.grammars.prune s.actionScopes).2.get? h r ∧ k.text ∈ r.labels := by
  intro s
  obtain ⟨g, hg⟩ : ∃ g, s.grammars.get? "a" = some g := ⟨_, rfl⟩
  have hs : Registry.registerAll .empty [("k", Collector.collectorSource, Collector.collector)] =
      (.ok (), s.registry) := rfl
  obtain ⟨g', hg', h⟩ :=
    prune_triggers s hs .allAncestors LoadedGrammars.chain_distinct LoadedGrammars.chain_acyclic hg
  have hreached : ∃ h r, g.Reaches s.grammars.get? h r ∧ ((Scope.parse? "k").get rfl).text ∈ r.labels := by
    cases hg
    refine ⟨_, .named "k", .grammar (t := "b") (.root (r := .including "b#part") ?_) rfl rfl (.head _), .head _⟩
    exact .tail _ (.head _)
  exact ⟨g, g', (Scope.parse? "k").get rfl, rfl, rfl, hg, hreached, hg', h _ rfl (fun _ => rfl) hreached⟩

/-- A grammar whose one scope lies beneath `a`. -/
def beneath : LoadedGrammars :=
  (({} : LoadedGrammars).insert (.ofPatterns "x" [.named "a.b"])).2

/-- A label that finds actions on an ancestor only is lost: the scopes to keep do not count it. -/
theorem ancestral_lost :
    let s := collecting "a" beneath
    let log := [("a", Collector.collectorSource, Collector.collector)]
    Registry.registerAll .empty log = (.ok (), s.registry) ∧ s.grammars.Distinct ∧ Grammar.Acyclic s.grammars.get? ∧
      ∃ (k : Scope) (g g' : Grammar), k.text = "a.b" ∧ s.registry.finds k .mostSpecific = true ∧
        s.registry.finds k .allAncestors = true ∧
        s.grammars.get? "x" = some g ∧ (∃ h r, g.Reaches s.grammars.get? h r ∧ k.text ∈ r.labels) ∧
        (s.grammars.prune s.actionScopes).2.get? "x" = some g' ∧
        ¬∃ h r, g'.Reaches (s.grammars.prune s.actionScopes).2.get? h r ∧ k.text ∈ r.labels := by
  intro s log
  have hx : ∀ rs, (Grammar.ofPatterns "x" rs).Distinct := fun _ => List.nodup_nil
  have hkeep : s.actionScopes = ["a"] := by decide +kernel
  refine ⟨rfl, LoadedGrammars.distinct_empty.insert (hx _), Grammar.acyclic_of_ranked (fun _ => 0) rfl,
    (Scope.parse? "a.b").get rfl, .ofPatterns "x" [.named "a.b"], .ofPatterns "x" [], rfl, rfl, rfl, rfl,
    ⟨_, _, .root (.head _), .head _⟩, by rw [hkeep]; rfl, ?_⟩
  rintro ⟨h, r, hr, -⟩
  -- nothing is reached from a grammar without patterns
  obtain ⟨x, hx⟩ := hr.exists_pattern
  cases hx

end ScopeActions.Session
