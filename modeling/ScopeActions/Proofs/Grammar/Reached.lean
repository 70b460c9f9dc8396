import ScopeActions.Proofs.Grammar.Decisions
import ScopeActions.Proofs.Grammar.Questions
/-!
# What pruning from a grammar touches

A pass decides the grammars that it is asked about and all that these include, directly or through others, in the
set as it was before; the rest it leaves alone (`PrunePass.mem_visited_run`). So pruning from one grammar touches
what that grammar reaches (`LoadedGrammars.pruneFrom_reaches`).
-/

namespace ScopeActions

namespace PrunePass

/-- The pass is over the grammars of `gs` and has left alone what it has not visited. -/
structure Untouched (gs : Assoc Grammar) (p : PrunePass) : Prop where
  keys : Assoc.keys p.grammars = Assoc.keys gs
  unvisited : ∀ s ∉ p.visited, Assoc.get? p.grammars s = Assoc.get? gs s

/-- Moreover it has visited only grammars in `R`, and all that is included by those decided. -/
structure Confined (gs : Assoc Grammar) (R : String → Prop) (p : PrunePass) : Prop extends Untouched gs p where
  confined : ∀ s ∈ p.visited, R s
  closed : ∀ s t, (p.report.verdict? s).isSome → Grammar.Includes (Assoc.get? gs) s t → t ∈ p.visited

variable {gs : Assoc Grammar} {R : String → Prop} {keep : ScopeSet} {α : Type} {x : Inquiry α} {a : α}
  {p q p' : PrunePass} {s t : String} {g : Grammar} {pruned : PrunedGrammar} {b : Bool}

theorem untouched_start (gs : Assoc Grammar) : Untouched gs { grammars := gs } := ⟨rfl, fun _ _ => rfl⟩

theorem Untouched.diagnosed (h : Untouched gs p) (d : Diagnostic) : Untouched gs (p.diagnosed d) :=
  ⟨h.keys, h.unvisited⟩

theorem Untouched.extends (h : Untouched gs p) (hq : Extends p q) : Untouched gs q where
  keys := hq.keys.trans h.keys
  unvisited s hs := (hq.grammar s (.inr hs)).trans (h.unvisited s fun hp => hs (hq.visited s hp))

theorem Untouched.enter (h : Untouched gs p) (s : String) : Untouched gs (p.enter s) where
  keys := h.keys
  unvisited t ht := h.unvisited t fun hp => ht (List.mem_append_left [s] hp)

theorem Untouched.finish (h : Untouched gs q) (hs : p.Fresh s g) (hq : Extends (p.enter s) q) :
    Untouched gs (q.finish s pruned b) where
  keys := (keys_finish (hq.keys ▸ hs.mem_keys)).trans h.keys
  unvisited t ht := by
    have hne : s ≠ t := fun e => ht (e ▸ hq.visited_enter)
    rw [PrunePass.finish, Assoc.get?_put, if_neg hne]
    exact h.unvisited t ht

/-- A grammar that is walked through is still the one of `gs`. -/
theorem Untouched.get?_fresh (h : Untouched gs p) (hs : p.Fresh s g) : Assoc.get? gs s = some g :=
  (h.unvisited s hs.unvisited).symm.trans hs.loaded

/-- A walk asks about what the grammar includes. -/
theorem Untouched.mem_asked (h : Untouched gs p) (hs : p.Fresh s g) (hd : g.Distinct) (q : PrunePass) :
    t ∈ (g.inquiry keep (Assoc.keys p.grammars)).asked (q.answer keep) ↔ Grammar.Includes (Assoc.get? gs) s t := by
  refine (Grammar.mem_asked_inquiry (V := verdicts keep p q) hd).trans ?_
  have hloaded : (verdicts keep p q).loaded.contains t = true ↔ (Assoc.get? gs t).isSome := by
    rw [List.contains_iff_mem]
    change t ∈ Assoc.keys p.grammars ↔ _
    rw [h.keys]
    exact Assoc.contains_iff_mem_keys.symm
  rw [hloaded]
  constructor
  · rintro ⟨hl, hr⟩
    exact ⟨g, h.get?_fresh hs, hl, hr⟩
  · rintro ⟨k, hk, hl, hr⟩
    obtain rfl := Option.some.inj ((h.get?_fresh hs).symm.trans hk)
    exact ⟨hl, hr⟩

/-- When its walk ends, all that the grammar includes has been visited. -/
theorem Runs.included_visited (h : Runs keep (g.inquiry keep (Assoc.keys p.grammars)) (p.enter s) pruned q)
    (hp : Sound p) (hs : p.Fresh s g) (hd : g.Distinct) (hu : Untouched gs p)
    (ht : Grammar.Includes (Assoc.get? gs) s t) : t ∈ q.visited := by
  refine ((h.value_eq (hp.enter hs)).2 t ((hu.mem_asked hs hd q).2 ht)).resolve_right fun hn => hn ?_
  obtain ⟨-, -, hloaded, -⟩ := ht
  rw [(h.extends (hp.enter hs)).1.keys]
  exact hu.keys.symm ▸ Assoc.contains_iff_mem_keys.1 hloaded

theorem Confined.diagnosed (h : Confined gs R p) (d : Diagnostic) : Confined gs R (p.diagnosed d) where
  toUntouched := h.toUntouched.diagnosed d
  confined := h.confined
  closed s t hs := h.closed s t (p.report.verdict?_diagnosed d s ▸ hs)

theorem Confined.enter (h : Confined gs R p) (hs : R s) : Confined gs R (p.enter s) where
  toUntouched := h.toUntouched.enter s
  confined t ht := by
    rcases List.mem_append.1 ht with ht | ht
    · exact h.confined t ht
    · exact List.mem_singleton.1 ht ▸ hs
  closed t u ht hu := List.mem_append_left [s] (h.closed t u ht hu)

theorem Confined.finish (h : Confined gs R q) (hs : p.Fresh s g) (hq : Extends (p.enter s) q)
    (hincluded : ∀ t, Grammar.Includes (Assoc.get? gs) s t → t ∈ q.visited) : Confined gs R (q.finish s pruned b) where
  toUntouched := h.toUntouched.finish hs hq
  confined := h.confined
  closed t u ht hu := by
    rw [verdict?_finish hq hs] at ht
    split at ht
    · next he => exact hincluded u (he ▸ hu)
    · exact h.closed t u ht hu

/-- Includes do not lead out of `R`, so neither does a run that asks only about grammars in it. -/
theorem Runs.confined (h : Runs keep x p a p') (hp : Sound p) (hd : Distinct p) (hc : Confined gs R p)
    (hR : ∀ s t, R s → Grammar.Includes (Assoc.get? gs) s t → R t) (hx : ∀ t ∈ x.asked (p'.answer keep), R t) :
    Confined gs R p' := by
  induction h with
  | done a p => exact hc
  | report _ ih => exact ih (hp.diagnosed _) hd (hc.diagnosed _) hx
  | known hs h ih =>
    rw [Inquiry.asked, h.answer_known hp hs] at hx
    exact ih hp hd hc fun t ht => hx t (List.mem_cons_of_mem _ ht)
  | @walk _ s g pruned k a p q p' hs h h' ih ih' =>
    obtain ⟨hq, hsq⟩ := h.extends (hp.enter hs)
    have hfinish : Sound (q.finish s pruned (keep.contains s || pruned.patternsLeft)) := hsq.finish hq hs
    rw [Inquiry.asked, h'.answer_finished hs hq hfinish] at hx
    have hRs : R s := hx s List.mem_cons_self
    have hdg : g.Distinct := hd s g hs.loaded
    have hwalk := ih (hp.enter hs) hd (hc.enter hRs) fun t ht => hR s t hRs ((hc.mem_asked hs hdg q).1 ht)
    have hincluded : ∀ t, Grammar.Includes (Assoc.get? gs) s t → t ∈ q.visited := fun _ =>
      h.included_visited hp hs hdg hc.toUntouched
    exact ih' hfinish (hs.distinct_finish h hp hd _) (hwalk.finish hs hq hincluded) fun t ht =>
      hx t (List.mem_cons_of_mem s ht)

/-- A pass visits the grammars given and all that they include. -/
theorem mem_visited_run (hd : ∀ s g, Assoc.get? gs s = some g → g.Distinct) (keep : ScopeSet) {scopes : List String}
    (hs : ∀ s ∈ scopes, s ∈ Assoc.keys gs) : t ∈ (run gs keep scopes).visited ↔
      ∃ s ∈ scopes, Relation.ReflTransGen (Grammar.Includes (Assoc.get? gs)) s t := by
  have h := runs_run gs keep scopes
  obtain ⟨hext, -⟩ := h.extends (sound_start gs)
  have hasked : (Inquiry.askAll scopes).asked ((run gs keep scopes).answer keep) = scopes := Inquiry.asked_askAll _ _
  have hstart : Confined gs (fun t => ∃ s ∈ scopes, Relation.ReflTransGen (Grammar.Includes (Assoc.get? gs)) s t)
      { grammars := gs } := ⟨untouched_start gs, by simp, fun _ _ h => by cases h⟩
  have hconfined := h.confined (sound_start gs) hd hstart (fun u v hu huv => ?_) fun u hu => ?_
  · refine ⟨hconfined.confined t, ?_⟩
    rintro ⟨s, hmem, hst⟩
    induction hst with
    | refl =>
      refine ((h.value_eq (sound_start gs)).2 s (hasked.symm ▸ hmem)).resolve_right fun hn => hn ?_
      rw [hext.keys]
      exact hs s hmem
    | tail _ huv ih => exact hconfined.closed _ _ (hext.decided _ ih List.not_mem_nil) huv
  · obtain ⟨s, hmem, hst⟩ := hu
    exact ⟨s, hmem, hst.tail huv⟩
  · exact ⟨u, hasked ▸ hu, .refl⟩

/-- What a pass decides is what it has visited, and it changes no more. -/
theorem mem_verdicts_run (hd : ∀ s g, Assoc.get? gs s = some g → g.Distinct) (keep : ScopeSet) {scopes : List String}
    (hs : ∀ s ∈ scopes, s ∈ Assoc.keys gs) : t ∈ (run gs keep scopes).report.verdicts ↔
      ∃ s ∈ scopes, Relation.ReflTransGen (Grammar.Includes (Assoc.get? gs)) s t :=
  (perm_visited_run gs keep scopes).2.mem_iff.trans (mem_visited_run hd keep hs)

end PrunePass

namespace LoadedGrammars

/-- Pruning from a grammar decides exactly the grammars that it reaches, in the set as it was, through includes that
stand where root patterns lead, and every other grammar stays as it was. There is nothing to prune from a grammar
that is not in the set, and nothing changes then. -/
theorem pruneFrom_reaches (l : LoadedGrammars) (s : String) (keep : ScopeSet) (hl : l.Distinct) :
    let reached := Relation.ReflTransGen (Grammar.Includes l.get?) s
    (l.contains s = true → ∃ r l', l.pruneFrom s keep = (.ok r, l') ∧
      (∀ t, t ∈ r.kept ∨ t ∈ r.dropped ↔ reached t) ∧ (∀ t, ¬reached t → l'.get? t = l.get? t) ∧
      l'.scopes = l.scopes ∧ l'.pristine = l.pristine ∧ l'.paths = l.paths) ∧
    (l.contains s = false → l.pruneFrom s keep = (.error (.notFound s), l) ∧ l.step (.pruneFrom s keep) = l) := by
  intro reached
  constructor
  · intro hs
    have hkeys : ∀ t ∈ [s], t ∈ Assoc.keys l.current := by simpa using Assoc.contains_iff_mem_keys.1 hs
    have hreached : ∀ t, (∃ u ∈ [s], Relation.ReflTransGen (Grammar.Includes l.get?) u t) ↔ reached t := by simp [reached]
    obtain ⟨hext, -⟩ := (PrunePass.runs_run l.current keep [s]).extends (PrunePass.sound_start l.current)
    refine ⟨(PrunePass.run l.current keep [s]).report, l.pruned keep [s], by simp [pruneFrom, hs, pruned], ?_, ?_, ?_,
      rfl, rfl⟩
    · intro t
      exact List.mem_append.symm.trans ((PrunePass.mem_verdicts_run hl.current keep hkeys).trans (hreached t))
    · intro t ht
      refine hext.grammar t (.inr fun hv => ht ?_)
      exact (hreached t).1 ((PrunePass.mem_visited_run hl.current keep hkeys).1 hv)
    · exact hext.keys
  · intro hs
    simp [step, pruneFrom, hs]

/-- The last grammar of the ring reaches only itself. -/
theorem ring_pruneFrom_reaches : ring.contains "c" = true ∧ ∃ r l', ring.pruneFrom "c" ["k"] = (.ok r, l') ∧
    (∀ t, t ∈ r.kept ∨ t ∈ r.dropped ↔ Relation.ReflTransGen (Grammar.Includes ring.get?) "c" t) ∧
    l'.scopes = ["a", "b", "c"] := by
  obtain ⟨r, l', hrun, hdecided, -, hscopes, -⟩ := (pruneFrom_reaches ring "c" ["k"] ring_distinct).1 rfl
  exact ⟨rfl, r, l', hrun, hdecided, hscopes⟩

end LoadedGrammars

end ScopeActions
