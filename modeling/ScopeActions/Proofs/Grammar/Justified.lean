import ScopeActions.Proofs.Grammar.Distinct
import ScopeActions.Proofs.Grammar.Live
/-!
# What pruning leaves is justified

Whatever is left by pruning is live in what is left, also where grammars include each other in a circle. A
pass keeps that all it has decided is justified by what it has decided: an answer about a grammar whose walk
goes on is only its own scope, and that needs no support.
-/

namespace ScopeActions

namespace PrunePass

/-- The grammars that are decided, as they are left. -/
def pruned? (p : PrunePass) (s : String) : Option Grammar :=
  if (p.report.verdict? s).isSome then Assoc.get? p.grammars s else none

/-- All that is decided is justified by what is decided. -/
structure Justified (keep : ScopeSet) (p : PrunePass) : Prop where
  grammar : ∀ s g, p.pruned? s = some g → g.root.patterns.isSome → g.Justified p.pruned? keep
  kept : ∀ s, p.report.verdict? s = some true → Grammar.LiveScope p.pruned? keep s

variable {keep : ScopeSet} {p q : PrunePass} {s : String} {g : Grammar} {pruned : PrunedGrammar} {b : Bool}

theorem pruned?_eq {t : String} (h : p.pruned? t = some g) :
    (p.report.verdict? t).isSome ∧ Assoc.get? p.grammars t = some g := by
  unfold pruned? at h
  split at h
  · next hv => exact ⟨hv, h⟩
  · cases h

theorem pruned?_finish (hq : Extends (p.enter s) q) (hs : p.Fresh s g) (t : String) :
    (q.finish s pruned b).pruned? t = if t = s then some pruned.grammar else q.pruned? t := by
  unfold pruned?
  rw [verdict?_finish hq hs, finish, Assoc.get?_put]
  by_cases ht : t = s
  · simp [ht]
  · simp [ht, Ne.symm ht]

/-- Finishing a grammar takes nothing away from what is decided. -/
theorem pruned?_mono (hq : Extends (p.enter s) q) (hs : p.Fresh s g) (t : String) (h : Grammar)
    (ht : q.pruned? t = some h) : (q.finish s pruned b).pruned? t = some h := by
  rw [pruned?_finish hq hs, if_neg, ht]
  rintro rfl
  have := (pruned?_eq ht).1
  rw [hs.undecided_of_extends hq] at this
  cases this

/-- Only what is justified is answered to be kept. -/
theorem Justified.liveScope (hq : Justified keep q) {t : String} (ht : (verdicts keep p q).foreign t = true) :
    Grammar.LiveScope q.pruned? keep t := by
  unfold Verdicts.foreign at ht
  split at ht
  · change q.answer keep t = true at ht
    unfold answer at ht
    cases hv : q.report.verdict? t with
    | none =>
      rw [hv] at ht
      exact .inl (by simpa using ht)
    | some b =>
      rw [hv] at ht
      obtain rfl : b = true := ht
      exact hq.kept t hv
  · exact .inl (by simpa [verdicts] using ht)

/-- A grammar that is left justified, and kept only for a reason, can be finished. -/
theorem Justified.finish (hj : Justified keep q) (hs : p.Fresh s g) (hq : Extends (p.enter s) q)
    (hleft : pruned.grammar.root.patterns.isSome → pruned.grammar.Justified q.pruned? keep)
    (hkept : pruned.patternsLeft = true → ∃ x ∈ pruned.grammar.patterns, pruned.grammar.Live q.pruned? keep x) :
    Justified keep (q.finish s pruned (keep.contains s || pruned.patternsLeft)) := by
  have hmono : ∀ t h, q.pruned? t = some h →
      (q.finish s pruned (keep.contains s || pruned.patternsLeft)).pruned? t = some h := pruned?_mono hq hs
  constructor
  · intro t h ht hpatterns
    rw [pruned?_finish hq hs] at ht
    split at ht
    · cases ht
      exact (hleft hpatterns).mono hmono
    · exact (hj.grammar t h ht hpatterns).mono hmono
  · intro t ht
    rw [verdict?_finish hq hs] at ht
    split at ht
    · next he =>
      rw [Option.some.injEq, Bool.or_eq_true] at ht
      rcases ht with ht | ht
      · exact .inl (he ▸ by simpa using ht)
      · obtain ⟨x, hx, hlive⟩ := hkept ht
        refine .inr ⟨pruned.grammar, ?_, x, hx, hlive.mono hmono⟩
        rw [pruned?_finish hq hs, if_pos he]
    · exact (hj.kept t ht).mono hmono

theorem Justified.diagnosed (h : Justified keep p) (d : Diagnostic) : Justified keep (p.diagnosed d) := by
  have heq : (p.diagnosed d).pruned? = p.pruned? := by
    funext t
    unfold pruned? PrunePass.diagnosed
    rw [PruneSummary.verdict?_diagnosed]
  refine ⟨heq ▸ h.grammar, fun s hs => ?_⟩
  rw [heq]
  exact h.kept s (p.report.verdict?_diagnosed d s ▸ hs)

/-- Walks keep all that is decided justified. -/
theorem invariant_justified (keep : ScopeSet) : Invariant keep fun p => Distinct p ∧ Justified keep p where
  diagnosed _ d h := ⟨h.1, h.2.diagnosed d⟩
  enter _ _ h := ⟨h.1, h.2.grammar, h.2.kept⟩
  finish p q s g hs hq hp h := by
    obtain ⟨hd, hj⟩ := h
    -- the verdicts that the walk went by are those of the pass in which it ended, and these are justified
    have hwalk := Grammar.justified_inquiry (V := verdicts keep p q) (fun t => hj.liveScope) (hp.1 s g hs.loaded)
    exact ⟨(invariant_distinct keep).finish p q s g hs hq hp.1 hd, hj.finish hs hq hwalk.1 hwalk.2⟩

end PrunePass

namespace LoadedGrammars

/-- What pruning leaves of a set is what its pass has decided. -/
theorem pruned?_run {l : LoadedGrammars} (keep : ScopeSet) {s : String} {g : Grammar}
    (hg : (l.prune keep).2.get? s = some g) : (PrunePass.run l.current keep l.scopes).pruned? s = some g := by
  have hrun := PrunePass.runs_run l.current keep l.scopes
  have hmem : s ∈ l.scopes := by
    have hkeys := (hrun.extends (PrunePass.sound_start _)).1.keys
    unfold scopes
    exact hkeys ▸ Assoc.mem_keys_of_get? hg
  have hdecided := PrunePass.decided_run l.current keep s hmem
  unfold PrunePass.pruned?
  rw [if_pos]
  · exact hg
  · exact hdecided

theorem justified_run {l : LoadedGrammars} (keep : ScopeSet) (hl : l.Distinct) :
    PrunePass.Justified keep (PrunePass.run l.current keep l.scopes) := by
  have hrun := PrunePass.runs_run l.current keep l.scopes
  have hstart : PrunePass.Justified keep { grammars := l.current } :=
    ⟨fun _ _ h => (by cases h), fun _ h => (by cases h)⟩
  exact ((PrunePass.invariant_justified keep).runs hrun (PrunePass.sound_start _) ⟨hl.current, hstart⟩).2

/-- After pruning, all that is left of a grammar with root patterns is live in what is left of the set. -/
theorem prune_justified (l : LoadedGrammars) (keep : ScopeSet) (hl : l.Distinct) {s : String} {g : Grammar}
    (hg : (l.prune keep).2.get? s = some g) (hp : g.root.patterns.isSome) :
    g.Justified (l.prune keep).2.get? keep := by
  have hleft := (justified_run keep hl).grammar s g (pruned?_run keep hg) hp
  exact hleft.mono fun t h ht => (PrunePass.pruned?_eq ht).2

/-- Two grammars that include each other, and an entry that includes itself. -/
def circle : LoadedGrammars :=
  let a := Grammar.ofPatterns "a" [.including "#loop", .including "b"]
  let b := Grammar.ofPatterns "b" [.including "a", .named "k"]
  (((({} : LoadedGrammars).insert (a.addEntry "loop" (.including "#loop"))).2).insert b).2

/-- What is left of the first of them. -/
def circleLeft : Grammar :=
  let root : Rule := .mk {} (some [.including "b"]) (some []) none none none
  { scopeName := "a", root }

theorem circle_distinct : circle.Distinct := by
  have h := Grammar.distinct_ofPatterns
  exact (distinct_empty.insert ((h _ _).addEntry _ _)).insert (h _ _)

theorem circle_justified : (circle.prune ["k"]).2.get? "a" = some circleLeft ∧
    circleLeft.Justified (circle.prune ["k"]).2.get? ["k"] :=
  ⟨rfl, prune_justified circle ["k"] circle_distinct (s := "a") rfl rfl⟩

end LoadedGrammars

end ScopeActions
