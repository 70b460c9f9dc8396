import ScopeActions.Proofs.Grammar.History
import ScopeActions.Proofs.Grammar.Reached
import ScopeActions.Proofs.Grammar.Sieve
/-!
# What a pass counts

A pass sifts every grammar, and what it counts adds up to what the sieves take out (`PrunePass.exists_sifting_run`). So
it counts nothing just when it changes nothing (`LoadedGrammars.isNoop_iff_unchanged`). It counts more than the lists of
patterns that are left get shorter: patterns nested in one that is taken out are counted beside it
(`LoadedGrammars.removedPatterns_nested`).
-/

namespace ScopeActions

namespace PrunePass

/-- Every grammar is what its sieve leaves of it, and the pass has counted what the sieves take out. -/
structure Sifting (gs : Assoc Grammar) (sieve : String → Sieve) (p : PrunePass) : Prop extends Untouched gs p where
  undecided : ∀ s, p.report.verdict? s = none → sieve s = .all
  grammar : ∀ s g, Assoc.get? gs s = some g →
    Assoc.get? p.grammars s = some (g.restrict (sieve s).rule (sieve s).entry)
  whole : ∀ s g, Assoc.get? gs s = some g → g.root.patterns = none → Assoc.get? p.grammars s = some g
  patterns : p.report.removedPatterns = (gs.map fun b => (b.2.removals (sieve b.1)).length).sum
  entries : p.report.removedEntries = (gs.map fun b => b.2.entryLoss (sieve b.1)).sum

variable {gs : Assoc Grammar} {keep : ScopeSet} {sieve : String → Sieve} {p q : PrunePass} {s : String} {g : Grammar}
  {pruned : PrunedGrammar} {b : Bool}

theorem removedPatterns_finish : (q.finish s pruned b).report.removedPatterns =
    q.report.removedPatterns + pruned.removedPatterns := by
  cases b <;> rfl

theorem removedEntries_finish : (q.finish s pruned b).report.removedEntries =
    q.report.removedEntries + pruned.removedEntries := by
  cases b <;> rfl

theorem sifting_start (gs : Assoc Grammar) : Sifting gs (fun _ => .all) { grammars := gs } where
  toUntouched := untouched_start gs
  undecided _ _ := rfl
  grammar s g hg := by rw [Grammar.restrict_all]; exact hg
  whole _ _ hg _ := hg
  patterns := by simp [Grammar.removals_all]
  entries := by simp [Grammar.entryLoss_all]

theorem Sifting.diagnosed (h : Sifting gs sieve p) (d : Diagnostic) : Sifting gs sieve (p.diagnosed d) where
  toUntouched := h.toUntouched.diagnosed d
  undecided s hs := h.undecided s (p.report.verdict?_diagnosed d s ▸ hs)
  grammar := h.grammar
  whole := h.whole
  patterns := by
    rw [← h.patterns, PrunePass.diagnosed, PruneSummary.diagnosed]
    split <;> rfl
  entries := by
    rw [← h.entries, PrunePass.diagnosed, PruneSummary.diagnosed]
    split <;> rfl

theorem Sifting.enter (h : Sifting gs sieve p) (s : String) : Sifting gs sieve (p.enter s) where
  toUntouched := h.toUntouched.enter s
  undecided := h.undecided
  grammar := h.grammar
  whole := h.whole
  patterns := h.patterns
  entries := h.entries

/-- When a grammar of which nothing was taken out gets a sieve, what is counted grows by what this takes out. -/
theorem sum_sieved (count : Sieve → Grammar → Nat) (hzero : ∀ g, count .all g = 0) (hn : (Assoc.keys gs).Nodup)
    (hg : Assoc.get? gs s = some g) (hall : sieve s = .all) {S : Sieve} :
    (gs.map fun b => count (if b.1 = s then S else sieve b.1) b.2).sum =
      (gs.map fun b => count (sieve b.1) b.2).sum + count S g := by
  induction gs with
  | nil => cases hg
  | cons b gs ih =>
    obtain ⟨hb, hn⟩ := List.nodup_cons.1 (show (b.1 :: Assoc.keys gs).Nodup from hn)
    rw [List.map_cons, List.map_cons, List.sum_cons, List.sum_cons]
    by_cases hbs : b.1 = s
    · have htail : gs.map (fun b => count (if b.1 = s then S else sieve b.1) b.2) =
          gs.map fun b => count (sieve b.1) b.2 := by
        refine List.map_congr_left fun c hc => ?_
        have hcs : c.1 ≠ s := fun hcs => hb (hbs.trans hcs.symm ▸ List.mem_map_of_mem hc)
        rw [if_neg hcs]
      rw [Assoc.get?, if_pos hbs] at hg
      obtain rfl := Option.some.inj hg
      rw [htail, if_pos hbs, hbs, hall, hzero, Nat.zero_add, Nat.add_comm]
    · rw [Assoc.get?, if_neg hbs] at hg
      rw [ih hn hg, if_neg hbs, Nat.add_assoc]

/-- A grammar that is done has its sieve from then on. -/
theorem Sifting.finish (h : Sifting gs sieve q) (hn : (Assoc.keys gs).Nodup) (hg : Assoc.get? gs s = some g)
    (hs : p.Fresh s g) (hq : Extends (p.enter s) q) {S : Sieve} (hS : PrunedGrammar.Sifted S g pruned) :
    Sifting gs (fun t => if t = s then S else sieve t) (q.finish s pruned b) := by
  -- up to now nothing was taken out of the grammar, and nothing counted
  have hall : sieve s = .all := h.undecided s (hs.undecided_of_extends hq)
  have hother : ∀ t, t ≠ s → (if t = s then S else sieve t) = sieve t := fun t ht => if_neg ht
  constructor
  case toUntouched => exact h.toUntouched.finish hs hq
  case undecided =>
    intro t ht
    rw [verdict?_finish hq hs] at ht
    split at ht
    · cases ht
    · next hne => rw [hother t hne, h.undecided t ht]
  case grammar =>
    intro t k hk
    rw [PrunePass.finish, Assoc.get?_put]
    split
    · next he =>
      obtain rfl := he
      obtain rfl := Option.some.inj (hg.symm.trans hk)
      rw [if_pos rfl, hS.grammar]
    · next hne =>
      rw [hother t (Ne.symm hne)]
      exact h.grammar t k hk
  case whole =>
    intro t k hk hnone
    rw [PrunePass.finish, Assoc.get?_put]
    split
    · next he =>
      obtain rfl := he
      obtain rfl := Option.some.inj (hg.symm.trans hk)
      rw [hS.whole hnone]
    · exact h.whole t k hk hnone
  case patterns =>
    rw [removedPatterns_finish, h.patterns, hS.patterns]
    exact (sum_sieved (fun S g => (g.removals S).length) (by simp [Grammar.removals_all]) hn hg hall).symm
  case entries =>
    rw [removedEntries_finish, h.entries, hS.entries]
    exact (sum_sieved (fun S g => g.entryLoss S) (fun _ => Grammar.entryLoss_all) hn hg hall).symm

/-- Nothing is counted when the sieves leave all grammars as they were. -/
theorem Sifting.isNoop_iff (h : Sifting gs sieve p) : p.report.isNoop = true ↔
    ∀ b ∈ gs, b.2.restrict (sieve b.1).rule (sieve b.1).entry = b.2 := by
  have hpatterns : p.report.removedPatterns = 0 ↔ ∀ b ∈ gs, (b.2.removals (sieve b.1)).length = 0 := by
    rw [h.patterns, List.sum_eq_zero_iff_forall_eq_nat, List.forall_mem_map]
  have hentries : p.report.removedEntries = 0 ↔ ∀ b ∈ gs, b.2.entryLoss (sieve b.1) = 0 := by
    rw [h.entries, List.sum_eq_zero_iff_forall_eq_nat, List.forall_mem_map]
  rw [PruneSummary.isNoop, Bool.and_eq_true, beq_iff_eq, beq_iff_eq, hpatterns, hentries, ← forall₂_and]
  exact forall₂_congr fun b _ => Grammar.sifted_eq_self_iff_counts.symm

/-- Walks sift. -/
theorem invariant_sifting (hn : (Assoc.keys gs).Nodup) (hd : ∀ s g, Assoc.get? gs s = some g → g.Distinct)
    (keep : ScopeSet) : Invariant keep fun p => ∃ sieve, Sifting gs sieve p where
  diagnosed _ d h := h.imp fun _ h => h.diagnosed d
  enter _ s h := h.imp fun _ h => h.enter s
  finish p q s g hs hq hp hi := by
    obtain ⟨_, hp⟩ := hp
    obtain ⟨sieve, h⟩ := hi
    have hg := hp.get?_fresh hs
    obtain ⟨S, hS⟩ := Grammar.sifted_inquiry (V := verdicts keep p q) (hd s g hg)
    exact ⟨_, h.finish hn hg hs hq hS⟩

/-- A pass sifts every grammar and counts what is taken out. -/
theorem exists_sifting_run (hn : (Assoc.keys gs).Nodup) (hd : ∀ s g, Assoc.get? gs s = some g → g.Distinct)
    (keep : ScopeSet) (scopes : List String) : ∃ sieve, Sifting gs sieve (run gs keep scopes) :=
  (invariant_sifting hn hd keep).runs (runs_run gs keep scopes) (sound_start gs) ⟨_, sifting_start gs⟩

end PrunePass

namespace LoadedGrammars

/-- Number of entries in the repository of a grammar. -/
def entryCount (l : LoadedGrammars) (s : String) : Nat := ((l.get? s).map fun g => g.entries.length).getD 0

variable {l : LoadedGrammars} {keep : ScopeSet} {scopes : List String} {sieve : String → Sieve}

theorem WellFormed.exists_sifting (hl : l.WellFormed) (keep : ScopeSet) (scopes : List String) :
    ∃ sieve, PrunePass.Sifting l.current sieve (PrunePass.run l.current keep scopes) :=
  PrunePass.exists_sifting_run hl.nodup hl.distinct.current keep scopes

/-- A grammar is pruned to what its sieve leaves. -/
theorem get?_pruned (h : PrunePass.Sifting l.current sieve (PrunePass.run l.current keep scopes)) {s : String}
    {g : Grammar} (hg : l.get? s = some g) :
    (l.pruned keep scopes).get? s = some (g.restrict (sieve s).rule (sieve s).entry) :=
  h.grammar s g hg

/-- The patterns that a pass counts are those by which the lists of patterns that are left get shorter, and beside them
all patterns nested in one that is taken out. So the first alone are counted just when nothing is nested in those. -/
theorem removedPatterns_nested (l : LoadedGrammars) (keep : ScopeSet) (scopes : List String) (hl : l.WellFormed) :
    let report := (PrunePass.run l.current keep scopes).report
    ∃ sieve : String → Sieve,
      (∀ s g, l.get? s = some g →
        (l.pruned keep scopes).get? s = some (g.restrict (sieve s).rule (sieve s).entry)) ∧
      report.removedPatterns = (l.current.map fun b => b.2.shrinkage (sieve b.1)).sum +
        (l.current.map fun b => ((b.2.takenOut (sieve b.1)).flatMap Rule.nested).length).sum ∧
      (report.removedPatterns = (l.current.map fun b => b.2.shrinkage (sieve b.1)).sum ↔
        ∀ b ∈ l.current, ∀ r ∈ b.2.takenOut (sieve b.1), r.nested = []) := by
  intro report
  obtain ⟨sieve, h⟩ := hl.exists_sifting keep scopes
  have hcount : ∀ b : String × Grammar, (b.2.removals (sieve b.1)).length = b.2.shrinkage (sieve b.1) +
      ((b.2.takenOut (sieve b.1)).flatMap Rule.nested).length := fun b => by
    rw [Grammar.removals_perm.length_eq, List.length_append, Grammar.length_takenOut]
  have hsum := h.patterns
  simp only [hcount, List.sum_map_add] at hsum
  refine ⟨sieve, fun s g => get?_pruned h, hsum, ?_⟩
  rw [hsum, Nat.add_eq_left, List.sum_eq_zero_iff_forall_eq_nat]
  simp only [List.forall_mem_map, List.length_eq_zero_iff, List.flatMap_eq_nil_iff]

/-- A grammar with a root pattern in whose list stands another. -/
def nestingGrammar : Grammar := Grammar.ofPatterns "a" [.mk { name := some "x" } (some [.named "y"]) none none none none]

/-- A set of this one grammar. -/
def nesting : LoadedGrammars := (({} : LoadedGrammars).insert nestingGrammar).2

theorem nesting_wellFormed : nesting.WellFormed :=
  wellFormed_after [.insert nestingGrammar (Grammar.distinct_ofPatterns "a" _)]

theorem nesting_removedPatterns : (PrunePass.run nesting.current ["k"] nesting.scopes).report.removedPatterns = 2 := by
  decide +kernel

/-- Both patterns are counted, the one by which the list of root patterns gets shorter and the one nested in it. -/
theorem removedPatterns_nested_nesting : ∃ sieve : String → Sieve,
    2 = (nesting.current.map fun b => b.2.shrinkage (sieve b.1)).sum +
      (nesting.current.map fun b => ((b.2.takenOut (sieve b.1)).flatMap Rule.nested).length).sum := by
  obtain ⟨sieve, -, hcount, -⟩ := removedPatterns_nested nesting ["k"] nesting.scopes nesting_wellFormed
  exact ⟨sieve, nesting_removedPatterns.symm.trans hcount⟩

/-- One list is left, that of the root patterns, and it gets shorter by one, whatever stays in it; but two patterns are
counted. -/
theorem removedPatterns_exceeds : nesting.WellFormed ∧ (nesting.prune ["k"]).1.removedPatterns = 2 ∧
    ∀ sieve : String → Sieve, (∀ s g, nesting.get? s = some g →
        (nesting.prune ["k"]).2.get? s = some (g.restrict (sieve s).rule (sieve s).entry)) →
      (nesting.current.map fun b => b.2.shrinkage (sieve b.1)).sum = 1 := by
  refine ⟨nesting_wellFormed, nesting_removedPatterns, fun sieve h => ?_⟩
  -- no root pattern is left, so no sieve that leaves this lets one stay
  have hpruned : ((nesting.prune ["k"]).2.get? "a").map (fun g => g.patterns.length) = some 0 := by decide +kernel
  rw [h "a" nestingGrammar rfl, Option.map_some, Option.some_inj] at hpruned
  have hgone : nestingGrammar.patterns.filter (sieve "a").rule = [] := by
    rwa [Grammar.patterns_restrict, List.length_map, List.length_eq_zero_iff] at hpruned
  have hstanding : nestingGrammar.standing (sieve "a") = [] := by
    rw [Grammar.standing, hgone]
    rfl
  change nestingGrammar.shrinkage (sieve "a") + 0 = 1
  rw [Grammar.shrinkage, hpruned, hstanding]
  rfl

theorem get?_pruned_eq_none {s : String} (hg : l.get? s = none) : (l.pruned keep scopes).get? s = none := by
  refine Assoc.get?_eq_none fun hs => ?_
  obtain ⟨g, hsome⟩ := Assoc.exists_of_mem_keys (PrunePass.keys_run l.current keep scopes ▸ hs)
  exact Option.some_ne_none g (hsome.symm.trans hg)

/-- The grammars are as they were when the sieves leave them as they were. -/
theorem unchanged_iff (hn : l.scopes.Nodup)
    (h : PrunePass.Sifting l.current sieve (PrunePass.run l.current keep scopes)) :
    (∀ s, (l.pruned keep scopes).get? s = l.get? s) ↔
      ∀ b ∈ l.current, b.2.restrict (sieve b.1).rule (sieve b.1).entry = b.2 := by
  constructor
  · intro hs b hb
    have hg : l.get? b.1 = some b.2 := Assoc.get?_of_mem hn hb
    exact Option.some.inj ((get?_pruned h hg).symm.trans ((hs b.1).trans hg))
  · intro hb s
    cases hg : l.get? s with
    | none => exact get?_pruned_eq_none hg
    | some g => rw [get?_pruned h hg, hb (s, g) (Assoc.mem_of_get? hg)]

theorem entryCount_pruned_le (h : PrunePass.Sifting l.current sieve (PrunePass.run l.current keep scopes)) (s : String) :
    (l.pruned keep scopes).entryCount s ≤ l.entryCount s := by
  unfold entryCount
  cases hg : l.get? s with
  | none => rw [get?_pruned_eq_none hg, Option.map_none]
  | some g =>
    rw [get?_pruned h hg, Option.map_some, Option.map_some, Option.getD_some, Option.getD_some, Grammar.entries_restrict,
      List.length_map]
    exact List.length_filter_le _ _

/-- A pass reports that nothing was removed just when it leaves every grammar as it was; and it counts by how much the
repositories get smaller. -/
theorem isNoop_iff_unchanged (l : LoadedGrammars) (keep : ScopeSet) (scopes : List String) (hl : l.WellFormed) :
    let report := (PrunePass.run l.current keep scopes).report
    let l' := l.pruned keep scopes
    (report.isNoop = true ↔ ∀ s, l'.get? s = l.get? s) ∧
      report.removedEntries = (l.scopes.map fun s => l.entryCount s - l'.entryCount s).sum ∧
      ∀ s, l'.entryCount s ≤ l.entryCount s := by
  intro report l'
  obtain ⟨sieve, h⟩ := hl.exists_sifting keep scopes
  have hcount : ∀ b ∈ l.current, b.2.entryLoss (sieve b.1) = l.entryCount b.1 - l'.entryCount b.1 := by
    intro b hb
    have hg : l.get? b.1 = some b.2 := Assoc.get?_of_mem hl.nodup hb
    rw [entryCount, entryCount, get?_pruned h hg, hg]
    rfl
  refine ⟨h.isNoop_iff.trans (unchanged_iff hl.nodup h).symm, ?_, entryCount_pruned_le h⟩
  rw [h.entries, LoadedGrammars.scopes, Assoc.keys, List.map_map]
  exact congrArg List.sum (List.map_congr_left hcount)

/-- Two grammars that include each other. -/
def pair : LoadedGrammars :=
  ((({} : LoadedGrammars).insert (Grammar.ofPatterns "a" [.including "b"])).2.insert
    (Grammar.ofPatterns "b" [.including "a"])).2

theorem pair_wellFormed : pair.WellFormed :=
  have h := Grammar.distinct_ofPatterns
  wellFormed_after [.insert _ (h "a" [.including "b"]), .insert _ (h "b" [.including "a"])]

/-- When the scope of one is kept, so is the other, and the pass changes nothing. -/
theorem isNoop_iff_unchanged_pair : pair.WellFormed ∧
    (PrunePass.run pair.current ["a"] pair.scopes).report.isNoop = true ∧
      ∀ s, (pair.pruned ["a"] pair.scopes).get? s = pair.get? s := by
  have hnoop : (PrunePass.run pair.current ["a"] pair.scopes).report.isNoop = true := by decide +kernel
  exact ⟨pair_wellFormed, hnoop, (isNoop_iff_unchanged pair ["a"] pair.scopes pair_wellFormed).1.1 hnoop⟩

end LoadedGrammars

end ScopeActions
