import ScopeActions.Proofs.Grammar.Again
import ScopeActions.Proofs.Grammar.Exact
import ScopeActions.Proofs.Grammar.History
import ScopeActions.Proofs.Grammar.Termination
/-!
# What a pass decides

Every pass ends, walks through a grammar at most once, and decides what it has walked through, once
(`PrunePass.perm_visited_run`); a verdict keeps a grammar when its own scope is to be kept or a root pattern is left
of it (`PrunePass.judged_run`). A pass over a whole set decides all of it (`LoadedGrammars.prune_decides`).
-/

namespace ScopeActions

namespace PruneSummary

/-- The grammars decided. -/
def verdicts (r : PruneSummary) : List String := r.kept ++ r.dropped

theorem isSome_verdict? {r : PruneSummary} {s : String} : (r.verdict? s).isSome ↔ s ∈ r.verdicts := by
  rw [verdicts, List.mem_append, verdict?]
  split
  · next h => exact iff_of_true rfl (.inl (by simpa using h))
  · next h => split <;> simp_all

theorem perm_verdicts_decided (r : PruneSummary) (s : String) (b : Bool) :
    (r.decided s b).verdicts.Perm (s :: r.verdicts) := by
  cases b with
  | false =>
    have hdropped : (r.decided s false).verdicts = (r.kept ++ r.dropped) ++ [s] := (List.append_assoc _ _ _).symm
    rw [hdropped]
    exact List.perm_append_singleton s (r.kept ++ r.dropped)
  | true => exact (List.perm_append_singleton s r.kept).append_right r.dropped

end PruneSummary

/-- A pattern is left over just when there is one in the grammar that the walk leaves. -/
theorem Grammar.patternsLeft_leave (g : Grammar) (patterns : List Rule) (entries : List (String × Rule)) (w : PruneWalk) :
    (g.leave patterns entries w).patternsLeft = true ↔ (g.leave patterns entries w).grammar.patterns ≠ [] := by
  rcases g with ⟨_, _, _, _, _, _, _, _, _⟩
  simp [leave, Grammar.patterns, Rule.patterns]

theorem Grammar.patternsLeft_inquiry (keep : ScopeSet) (loaded : List String) (o : String → Bool) (g : Grammar) :
    ((g.inquiry keep loaded).value o).patternsLeft = true ↔ ((g.inquiry keep loaded).value o).grammar.patterns ≠ [] := by
  unfold inquiry
  cases hg : g.root.patterns with
  | none =>
    rw [pruneRules_none _ _ hg]
    simp [patterns, hg]
  | some ps =>
    rw [pruneRules_some _ _ (by rw [hg]; rfl)]
    simp only [Inquiry.value_bind, Inquiry.value_pure]
    exact patternsLeft_leave g _ _ _

namespace PrunePass

variable {gs : Assoc Grammar} {keep : ScopeSet} {α : Type} {x : Inquiry α} {a : α} {p q p' : PrunePass} {s : String}
  {g : Grammar}

/-- A walk begins once for a grammar, and a grammar is decided once. -/
structure Once (p : PrunePass) : Prop where
  visited : p.visited.Nodup
  decided : p.report.verdicts.Nodup

theorem Once.enter (h : Once p) (hs : p.Fresh s g) : Once (p.enter s) where
  visited := (List.perm_append_singleton s p.visited).nodup_iff.2 (List.nodup_cons.2 ⟨hs.unvisited, h.visited⟩)
  decided := h.decided

theorem Once.finish (h : Once q) (hs : q.report.verdict? s = none) (pruned : PrunedGrammar) (b : Bool) :
    Once (q.finish s pruned b) where
  visited := h.visited
  decided := by
    have hmem : s ∉ q.report.verdicts := by simp [← PruneSummary.isSome_verdict?, hs]
    exact (PruneSummary.perm_verdicts_decided (q.report.removed _ _) s b).nodup_iff.2
      (List.nodup_cons.2 ⟨hmem, h.decided⟩)

theorem Runs.once (h : Runs keep x p a p') (hp : Sound p) (ho : Once p) : Once p' := by
  induction h with
  | done a p => exact ho
  | @report _ d _ _ p _ _ ih =>
    refine ih (hp.diagnosed d) ⟨ho.visited, ?_⟩
    have hverdicts : (p.diagnosed d).report.verdicts = p.report.verdicts := by
      unfold diagnosed PruneSummary.diagnosed
      dsimp only
      split <;> rfl
    exact hverdicts ▸ ho.decided
  | known _ _ ih => exact ih hp ho
  | walk hs h _ ih ih' =>
    obtain ⟨hq, hsound⟩ := h.extends (hp.enter hs)
    exact ih' (hsound.finish hq hs) ((ih (hp.enter hs) (ho.enter hs)).finish (hs.undecided_of_extends hq) _ _)

/-- In the end what is decided is what has been walked through. -/
theorem perm_visited_run (gs : Assoc Grammar) (keep : ScopeSet) (scopes : List String) :
    let p := run gs keep scopes
    p.visited.Nodup ∧ p.report.verdicts.Perm p.visited := by
  intro p
  have h := runs_run gs keep scopes
  obtain ⟨hext, hsound⟩ := h.extends (sound_start gs)
  have honce : Once p := h.once (sound_start gs) ⟨List.nodup_nil, List.nodup_nil⟩
  refine ⟨honce.visited, (List.perm_ext_iff_of_nodup honce.decided honce.visited).2 fun s => ?_⟩
  rw [← PruneSummary.isSome_verdict?]
  exact ⟨hsound.visited s, fun hs => hext.decided s hs List.not_mem_nil⟩

/-- A grammar decided is kept when its own scope is to be kept or when a root pattern is left of it. -/
def Judged (keep : ScopeSet) (p : PrunePass) : Prop :=
  ∀ s b g, p.report.verdict? s = some b → Assoc.get? p.grammars s = some g → (b = true ↔ s ∈ keep ∨ g.patterns ≠ [])

theorem invariant_judged (keep : ScopeSet) : Invariant keep (Judged keep) where
  diagnosed p d h s b g hv := h s b g (p.report.verdict?_diagnosed d s ▸ hv)
  enter _ _ h := h
  finish p q s g hs hq _ h t b k hv hk := by
    rw [verdict?_finish hq hs] at hv
    rw [finish, Assoc.get?_put] at hk
    by_cases ht : t = s
    · rw [if_pos ht] at hv
      rw [if_pos ht.symm] at hk
      cases hv
      cases hk
      rw [Bool.or_eq_true, Grammar.patternsLeft_inquiry, ht, List.contains_iff_mem]
    · rw [if_neg ht] at hv
      rw [if_neg (Ne.symm ht)] at hk
      exact h t b k hv hk

theorem judged_run (gs : Assoc Grammar) (keep : ScopeSet) (scopes : List String) : Judged keep (run gs keep scopes) :=
  (invariant_judged keep).runs (runs_run gs keep scopes) (sound_start gs) fun _ _ _ h => by cases h

end PrunePass

namespace LoadedGrammars

/-- Pruning a set ends, and decides every grammar of it exactly once. Given steps, a pass that leaves an empty grammar
in the place of each one that it walks through does not run out of them, and ends as pruning does: it has walked
through no grammar twice; the grammars kept and dropped are those of the set; a grammar is kept when its own scope
is to be kept or when a root pattern is left of it; and the scopes are those from before, each of the grammar found
by it. -/
theorem prune_decides (l : LoadedGrammars) (keep : ScopeSet) (hl : l.WellFormed) :
    ∃ p : PrunePass, (∃ n₀, ∀ n ≥ n₀, PrunePass.runWithin n l.current keep l.scopes = some p) ∧
      l.prune keep = (p.report, { l with current := p.grammars }) ∧
      p.visited.Nodup ∧ (p.report.kept ++ p.report.dropped).Perm l.scopes ∧
      (∀ s g, Assoc.get? p.grammars s = some g → (s ∈ p.report.kept ↔ s ∈ keep ∨ g.patterns ≠ [])) ∧
      Assoc.keys p.grammars = l.scopes ∧ ∀ s g, Assoc.get? p.grammars s = some g → g.scopeName = s := by
  have hwithin : ∀ n ≥ PrunePass.enough l.current, PrunePass.runWithin n l.current keep l.scopes =
      some (PrunePass.run l.current keep l.scopes) := fun n => PrunePass.runWithin_eq hl.nodup keep l.scopes
  have hkeys : Assoc.keys (PrunePass.run l.current keep l.scopes).grammars = l.scopes :=
    PrunePass.keys_run l.current keep l.scopes
  have hdecided : ∀ s ∈ l.scopes, ((PrunePass.run l.current keep l.scopes).report.verdict? s).isSome :=
    PrunePass.decided_run l.current keep
  obtain ⟨-, hsound⟩ := (PrunePass.runs_run l.current keep l.scopes).extends (PrunePass.sound_start _)
  obtain ⟨hvisited, hverdicts⟩ := PrunePass.perm_visited_run l.current keep l.scopes
  refine ⟨PrunePass.run l.current keep l.scopes, ⟨_, hwithin⟩, rfl, hvisited, ?_, ?_, hkeys, ?_⟩
  · refine (List.perm_ext_iff_of_nodup (hverdicts.nodup_iff.2 hvisited) hl.nodup).2 fun s => ?_
    rw [← PruneSummary.isSome_verdict?]
    refine ⟨fun hs => ?_, hdecided s⟩
    rw [← hkeys]
    exact hsound.loaded s (hsound.visited s hs)
  · intro s g hg
    have hs : s ∈ l.scopes := by
      rw [← hkeys]
      exact Assoc.mem_keys_of_get? hg
    obtain ⟨b, hb⟩ := Option.isSome_iff_exists.1 (hdecided s hs)
    rw [mem_kept_iff, hb, Option.some.injEq]
    exact PrunePass.judged_run l.current keep l.scopes s b g hb hg
  · intro s g hg
    obtain ⟨g₀, h₀, hr⟩ := PrunePass.remains_run hl.distinct.current keep l.scopes s g hg
    exact hr.scopeName.trans (hl.named s g₀ h₀)

theorem ring_wellFormed : ring.WellFormed :=
  have h := Grammar.distinct_ofPatterns
  wellFormed_after [.insert _ ((h "a" _).addEntry "loop" _), .insert _ (h "b" _),
    .insert _ ((h "c" _).addEntry "loop" _)]

theorem ring_prune_decides : ring.scopes = ["a", "b", "c"] ∧
    ∃ p : PrunePass, (∃ n₀, ∀ n ≥ n₀, PrunePass.runWithin n ring.current ["k"] ring.scopes = some p) ∧
      (p.report.kept ++ p.report.dropped).Perm ["a", "b", "c"] := by
  obtain ⟨p, hwithin, -, -, hdecided, -⟩ := prune_decides ring ["k"] ring_wellFormed
  exact ⟨rfl, p, hwithin, hdecided⟩

end LoadedGrammars

end ScopeActions
