import ScopeActions.Proofs.Grammar.Exact
/-!
# What a pass leaves of each grammar

In every set, a pass leaves of a grammar what a walk leaves by some answers about the grammars that it includes
(`LoadedGrammars.exists_leaves`). An answer is the verdict on the grammar, or where this is not out whether its own
scope is to be kept; without circles it is right (`LoadedGrammars.Answers`).
-/

namespace ScopeActions

namespace PrunePass

/-- Of each grammar decided is left what a walk leaves by verdicts that are those of the pass, as far as these are
out. -/
structure Leaving (gs : Assoc Grammar) (keep : ScopeSet) (p : PrunePass) : Prop where
  fresh : ∀ s g, p.Fresh s g → Assoc.get? gs s = some g
  grammar : ∀ s g, (p.report.verdict? s).isSome → Assoc.get? gs s = some g → ∃ V : Verdicts, V.keep = keep ∧
    (∀ t, V.foreign t = keep.contains t ∨ p.report.verdict? t = some (V.foreign t)) ∧
      Assoc.get? p.grammars s = some (g.leaves V)

variable {gs : Assoc Grammar} {keep : ScopeSet} {p q : PrunePass} {s : String} {g : Grammar}

/-- What is answered about a grammar is the verdict on it, if there is one. -/
theorem foreign_verdicts (keep : ScopeSet) (p q : PrunePass) (t : String) :
    (verdicts keep p q).foreign t = keep.contains t ∨ q.report.verdict? t = some ((verdicts keep p q).foreign t) := by
  unfold Verdicts.foreign
  split
  · change q.answer keep t = _ ∨ q.report.verdict? t = some (q.answer keep t)
    unfold answer
    cases q.report.verdict? t with
    | none => exact .inl rfl
    | some b => exact .inr rfl
  · exact .inl rfl

theorem Leaving.diagnosed (h : Leaving gs keep p) (d : Diagnostic) : Leaving gs keep (p.diagnosed d) := by
  have hverdict : (p.diagnosed d).report.verdict? = p.report.verdict? := funext (p.report.verdict?_diagnosed d)
  constructor
  · intro s g hs
    exact h.fresh s g ⟨hverdict ▸ hs.undecided, hs.unvisited, hs.loaded⟩
  · rw [hverdict]
    exact h.grammar

theorem Leaving.enter (h : Leaving gs keep p) (s : String) : Leaving gs keep (p.enter s) where
  fresh t g ht := h.fresh t g ⟨ht.undecided, fun hp => ht.unvisited (List.mem_append_left [s] hp), ht.loaded⟩
  grammar := h.grammar

theorem Leaving.finish {V : Verdicts} {pruned : PrunedGrammar} {b : Bool} (h : Leaving gs keep q) (hs : p.Fresh s g)
    (hq : Extends (p.enter s) q) (hg : Assoc.get? gs s = some g) (hkeep : V.keep = keep)
    (hV : ∀ t, V.foreign t = keep.contains t ∨ q.report.verdict? t = some (V.foreign t))
    (hgrammar : pruned.grammar = g.leaves V) : Leaving gs keep (q.finish s pruned b) := by
  -- the grammar that is finished had no verdict, so no answer went by it
  have hmono : ∀ W : Verdicts, (∀ t, W.foreign t = keep.contains t ∨ q.report.verdict? t = some (W.foreign t)) →
      ∀ t, W.foreign t = keep.contains t ∨ (q.finish s pruned b).report.verdict? t = some (W.foreign t) := by
    intro W hW t
    rw [verdict?_finish hq hs]
    split
    · next ht => exact .inl ((hW t).resolve_right (by simp [ht, hs.undecided_of_extends hq]))
    · exact hW t
  constructor
  · intro t k ht
    have hundecided := ht.undecided
    have hloaded := ht.loaded
    rw [verdict?_finish hq hs] at hundecided
    rw [PrunePass.finish, Assoc.get?_put] at hloaded
    split at hundecided
    · cases hundecided
    · next hne =>
      rw [if_neg (Ne.symm hne)] at hloaded
      exact h.fresh t k ⟨hundecided, ht.unvisited, hloaded⟩
  · intro t k ht hk
    rw [verdict?_finish hq hs] at ht
    rw [PrunePass.finish, Assoc.get?_put]
    by_cases he : s = t
    · subst he
      rw [hg, Option.some.injEq] at hk
      subst hk
      exact ⟨V, hkeep, hmono V hV, by rw [if_pos rfl, hgrammar]⟩
    · rw [if_neg (Ne.symm he)] at ht
      obtain ⟨W, hWkeep, hW, hleft⟩ := h.grammar t k ht hk
      exact ⟨W, hWkeep, hmono W hW, by rw [if_neg he, hleft]⟩

/-- Walks leave what they leave. -/
theorem invariant_leaving (gs : Assoc Grammar) (keep : ScopeSet) :
    Invariant keep fun p => Distinct p ∧ Leaving gs keep p where
  diagnosed _ d h := ⟨h.1, h.2.diagnosed d⟩
  enter _ s h := ⟨h.1, h.2.enter s⟩
  finish p q s g hs hq hp h := by
    obtain ⟨hd, hl⟩ := h
    refine ⟨(invariant_distinct keep).finish p q s g hs hq hp.1 hd, ?_⟩
    exact hl.finish hs hq (hp.2.fresh s g hs) rfl (foreign_verdicts keep p q)
      (Grammar.inquiry_value (V := verdicts keep p q) (hp.1 s g hs.loaded)).1

theorem leaving_start : Leaving gs keep { grammars := gs } :=
  ⟨fun _ _ hs => hs.loaded, fun _ _ h => (by cases h)⟩

end PrunePass

namespace LoadedGrammars

/-- What a pass may answer in one grammar about those that it includes. -/
structure Answers (l : LoadedGrammars) (keep : ScopeSet) (foreign : String → Bool) : Prop where
  /-- The verdict, or whether the scope of the grammar is to be kept. -/
  verdict : ∀ t, foreign t = keep.contains t ∨ (l.prune keep).1.verdict? t = some (foreign t)
  /-- Without circles, whether the grammar can give a scope to keep. -/
  right : Grammar.Acyclic l.get? → ∀ t, foreign t = true ↔ Grammar.LiveScope l.get? keep t

theorem answers_right {l : LoadedGrammars} {keep : ScopeSet} (hl : l.Distinct) (ha : Grammar.Acyclic l.get?) :
    l.Answers keep (Verdicts.right l.current keep).foreign := by
  have he : PrunePass.Exact l.current keep (PrunePass.run l.current keep l.scopes) :=
    PrunePass.exact_run hl.current ha l.scopes
  refine ⟨fun t => ?_, fun _ t => Verdicts.foreign_right⟩
  unfold Verdicts.foreign
  split
  · next ht =>
    obtain ⟨b, hb⟩ := Option.isSome_iff_exists.1 (PrunePass.decided_run l.current keep t (List.contains_iff_mem.1 ht))
    exact .inr (hb.trans (congrArg some (he.verdict t b hb)))
  · exact .inl rfl

/-- Of each grammar is left what a walk leaves by such answers. -/
theorem exists_leaves {l : LoadedGrammars} (keep : ScopeSet) (hl : l.Distinct) {s : String} {g : Grammar}
    (hg : l.get? s = some g) : ∃ V : Verdicts, V.keep = keep ∧ l.Answers keep V.foreign ∧
      (l.prune keep).2.get? s = some (g.leaves V) := by
  by_cases ha : Grammar.Acyclic l.get?
  · refine ⟨Verdicts.right l.current keep, rfl, answers_right hl ha, ?_⟩
    rw [get?_prune keep hl ha, hg, Option.map_some]
  · have hrun := PrunePass.runs_run l.current keep l.scopes
    obtain ⟨-, hleaving⟩ := (PrunePass.invariant_leaving l.current keep).runs hrun (PrunePass.sound_start _)
      ⟨hl.current, PrunePass.leaving_start⟩
    obtain ⟨V, hkeep, hV, hleft⟩ := hleaving.grammar s g
      (PrunePass.decided_run l.current keep s (Assoc.mem_keys_of_get? hg)) hg
    exact ⟨V, hkeep, ⟨hV, fun h => absurd h ha⟩, hleft⟩

end LoadedGrammars

end ScopeActions
