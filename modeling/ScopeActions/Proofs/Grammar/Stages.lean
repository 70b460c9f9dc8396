import ScopeActions.Proofs.Grammar.Layers
/-!
# Pruning in stages

Where no two grammars reach each other, pruning for some scopes and then for fewer of them leaves what pruning for
the fewer leaves, and what is kept for the fewer is kept for all (`LoadedGrammars.prune_stages`).
-/

namespace ScopeActions

namespace Grammar

variable {look look' : String → Option Grammar} {V : Verdicts} {g : Grammar}

/-- What a walk leaves includes nothing that the grammar did not include. -/
theorem Leads.exists_of_leaves {x : Rule} (hx : (g.leaves V).Leads x) : ∃ r, g.Leads r ∧ r.inclusion? = x.inclusion? := by
  unfold leaves at hx
  split at hx
  · obtain ⟨r, hr, rfl⟩ := hx.exists_of_left
    exact ⟨r, hr, (Rule.inclusion?_restrict r).symm⟩
  · exact ⟨x, hx, rfl⟩

/-- With fewer includes there are no new circles. -/
theorem Layered.of_includes (h : Layered look) (hi : ∀ s t, Includes look' s t → Includes look s t) : Layered look' :=
  fun s t hst hts => h s t (hst.lift id hi) (hts.lift id hi)

end Grammar

namespace PrunePass

variable {gs : Assoc Grammar} {keep keep' : ScopeSet} {p p' q : PrunePass} {s t : String} {g : Grammar}
  {V V' W : Verdicts}

/-- Every grammar of the set is decided, by verdicts on those that it includes. -/
structure Complete (gs : Assoc Grammar) (keep : ScopeSet) (p : PrunePass) : Prop extends Layers gs keep p where
  all : ∀ s ∈ Assoc.keys gs, (p.report.verdict? s).isSome

theorem complete_run (hd : ∀ s g, Assoc.get? gs s = some g → g.Distinct) (hl : Grammar.Layered (Assoc.get? gs))
    (keep : ScopeSet) : Complete gs keep (run gs keep (Assoc.keys gs)) where
  toLayers := layers_run hd hl keep _
  all := decided_run gs keep

/-- The verdicts by which a grammar of the set was decided, what is left of it, and whether it is kept. -/
theorem Complete.exists_informed (h : Complete gs keep p) (hg : Assoc.get? gs s = some g) : ∃ V, Informed gs keep p s V ∧
    Assoc.get? p.grammars s = some (g.leaves V) ∧
    p.report.verdict? s = some (keep.contains s || g.patterns.any (V.sees (g.liveNames V))) := by
  obtain ⟨b, hb⟩ := Option.isSome_iff_exists.1 (h.all s (Assoc.mem_keys_of_get? hg))
  obtain ⟨V, hV, hleft, heq⟩ := h.decided s b g hb hg
  exact ⟨V, hV, hleft, heq ▸ hb⟩

/-- A pass over a whole set adds no includes. -/
theorem Complete.includes (h : Complete gs keep p) (hi : Grammar.Includes (Assoc.get? p.grammars) s t) :
    Grammar.Includes (Assoc.get? gs) s t := by
  obtain ⟨g', hg', ht, x, hx, hi⟩ := hi
  obtain ⟨g, hg⟩ := Assoc.exists_of_mem_keys (h.keys ▸ Assoc.mem_keys_of_get? hg')
  obtain ⟨V, -, hleft, -⟩ := h.exists_informed hg
  obtain rfl := Option.some.inj (hg'.symm.trans hleft)
  obtain ⟨r, hr, hri⟩ := hx.exists_of_leaves
  refine ⟨g, hg, ?_, r, hr, hri.trans hi⟩
  exact Assoc.contains_iff_mem_keys.2 (h.keys ▸ Assoc.contains_iff_mem_keys.1 ht)

/-- Of the grammar of `s`, the pass `p` decides and leaves the same as `q`, which comes after `p'`, and if `p` keeps it,
so does `p'`. -/
structure Staged (p p' q : PrunePass) (s : String) : Prop where
  kept : p.report.verdict? s = some true → p'.report.verdict? s = some true
  verdict : q.report.verdict? s = p.report.verdict? s
  grammar : Assoc.get? q.grammars s = Assoc.get? p.grammars s

/-- An answer about a grammar that is not loaded is whether its scope is to be kept. -/
theorem Informed.foreign (h : Informed gs keep p s V) (t : String) :
    V.foreign t = if t ∈ Assoc.keys gs then V.on t else keep.contains t := by
  simp only [Verdicts.foreign, h.keep_eq, h.loaded_eq, List.contains_iff_mem]

section Walks
variable (hV : Informed gs keep p s V) (hV' : Informed gs keep' p' s V') (hW : Informed p'.grammars keep q s W)
  (hg : Assoc.get? gs s = some g) (hsub : ∀ s ∈ keep, s ∈ keep')
  (hstaged : ∀ t, t ≠ s → Grammar.Includes (Assoc.get? gs) s t → Staged p p' q t)
include hV hg hstaged

include hV' hsub in
/-- With more scopes to keep a walk through the grammar gets no fewer answers that keep. -/
theorem Informed.foreign_mono {r : Rule} (hr : g.Leads r) (hi : r.inclusion? = some (.grammar t))
    (ht : V.foreign t = true) : V'.foreign t = true := by
  have hkeep : ∀ t, keep.contains t = true → keep'.contains t = true := fun t ht => by
    simpa using hsub t (by simpa using ht)
  rw [hV.foreign] at ht
  rw [hV'.foreign]
  split at ht
  · next hmem =>
    rw [if_pos hmem]
    by_cases hts : t = s
    · rw [hts, hV.own] at ht
      rw [hts, hV'.own]
      exact hkeep s ht
    · have hst : Grammar.Includes (Assoc.get? gs) s t := ⟨g, hg, Assoc.contains_iff_mem_keys.2 hmem, r, hr, hi⟩
      have hverdict := (hstaged t hts hst).kept (ht ▸ hV.other t hts hst)
      exact Option.some.inj ((hV'.other t hts hst).symm.trans hverdict)
  · next hmem =>
    rw [if_neg hmem]
    exact hkeep t ht

include hW in
/-- The walk through what an earlier one left gets the answers that a walk through the whole gets. -/
theorem Informed.foreign_eq (hg' : Assoc.get? p'.grammars s = some (g.leaves V'))
    (hkeys : Assoc.keys p'.grammars = Assoc.keys gs) {x : Rule} (hx : (g.left V').Leads x)
    (hi : x.inclusion? = some (.grammar t)) : W.foreign t = V.foreign t := by
  rw [hW.foreign, hV.foreign, hkeys]
  split
  · next hmem =>
    by_cases hts : t = s
    · rw [hts, hW.own, hV.own]
    · obtain ⟨r, hr, rfl⟩ := hx.exists_of_left
      have hleaves : g.leaves V' = g.left V' := if_pos hr.isSome_patterns
      have hst : Grammar.Includes (Assoc.get? gs) s t :=
        ⟨g, hg, Assoc.contains_iff_mem_keys.2 hmem, r, hr, (Rule.inclusion?_restrict r).symm.trans hi⟩
      have hst' : Grammar.Includes (Assoc.get? p'.grammars) s t :=
        ⟨g.left V', hleaves ▸ hg', Assoc.contains_iff_mem_keys.2 (hkeys ▸ hmem), _, hx, hi⟩
      have hverdict := (hW.other t hts hst').symm.trans (hstaged t hts hst).verdict
      exact Option.some.inj (hverdict.trans (hV.other t hts hst))
  · rfl

end Walks

/-- The passes agree about a grammar when they do about the others that it includes. -/
theorem Complete.staged (h : Complete gs keep p) (h' : Complete gs keep' p') (hq : Complete p'.grammars keep q)
    (hsub : ∀ s ∈ keep, s ∈ keep') (hg : Assoc.get? gs s = some g) (hd : g.Distinct)
    (hstaged : ∀ t, t ≠ s → Grammar.Includes (Assoc.get? gs) s t → Staged p p' q t) : Staged p p' q s := by
  obtain ⟨V, hV, hleft, hverdict⟩ := h.exists_informed hg
  obtain ⟨V', hV', hleft', hverdict'⟩ := h'.exists_informed hg
  obtain ⟨W, hW, hleft'', hverdict''⟩ := hq.exists_informed hleft'
  have hstricter : Grammar.Stricter V V' W g :=
    { keep := by rwa [hV.keep_eq, hV'.keep_eq]
      foreign := fun r t hr hi => hV.foreign_mono hV' hg hsub hstaged hr hi
      keep_eq := by rw [hW.keep_eq, hV.keep_eq]
      foreign_eq := fun x t hx hi => hV.foreign_eq hW hg hstaged hleft' h'.keys hx hi }
  constructor
  · rw [hverdict, hverdict', Option.some.injEq, Option.some.injEq, Bool.or_eq_true, Bool.or_eq_true]
    refine Or.imp (fun hk => ?_) fun hany => ?_
    · simpa using hsub s (by simpa using hk)
    · obtain ⟨r, hr, hsees⟩ := List.any_eq_true.1 hany
      rw [hstricter.sees_eq (.root hr), Bool.and_eq_true] at hsees
      exact List.any_eq_true.2 ⟨r, hr, hsees.1⟩
  · rw [hverdict'', hverdict, hstricter.any_leaves]
  · rw [hleft'', hleft, hstricter.leaves_leaves hd]

end PrunePass

namespace LoadedGrammars

/-- Where no two grammars reach each other through includes, pruning for some scopes after pruning for more leaves
exactly what pruning for them alone leaves, and it keeps no grammar that is not kept for more scopes. -/
theorem prune_stages (l : LoadedGrammars) (keep keep' : ScopeSet) (hl : l.WellFormed) (ha : Grammar.Layered l.get?)
    (hsub : ∀ s ∈ keep, s ∈ keep') :
    ((l.prune keep').2.prune keep).2 = (l.prune keep).2 ∧
      ∀ s ∈ (l.prune keep).1.kept, s ∈ (l.prune keep').1.kept := by
  let p := PrunePass.run l.current keep l.scopes
  let p' := PrunePass.run l.current keep' l.scopes
  let q := PrunePass.run p'.grammars keep (Assoc.keys p'.grammars)
  have hp : PrunePass.Complete l.current keep p := PrunePass.complete_run hl.distinct.current ha keep
  have hp' : PrunePass.Complete l.current keep' p' := PrunePass.complete_run hl.distinct.current ha keep'
  have hq : PrunePass.Complete p'.grammars keep q :=
    PrunePass.complete_run (hl.distinct.prune keep').current (ha.of_includes fun _ _ => hp'.includes) keep
  have hstaged : ∀ s, s ∈ l.scopes → PrunePass.Staged p p' q s := by
    refine ha.induct fun s ih hs => ?_
    obtain ⟨g, hg⟩ := Assoc.exists_of_mem_keys hs
    refine hp.staged hp' hq hsub hg (hl.distinct.current s g hg) fun t hne hst => ih t hne hst ?_
    obtain ⟨-, -, ht, -⟩ := hst
    exact Assoc.contains_iff_mem_keys.1 ht
  have hscopes : Assoc.keys p.grammars = l.scopes := hp.keys
  have hscopes' : Assoc.keys q.grammars = l.scopes := hq.keys.trans hp'.keys
  have hgrammars : q.grammars = p.grammars := by
    refine Assoc.ext (hscopes'.trans hscopes.symm) (hscopes' ▸ hl.nodup) fun s => ?_
    by_cases hs : s ∈ l.scopes
    · exact (hstaged s hs).grammar
    · rw [Assoc.get?_eq_none (hscopes' ▸ hs), Assoc.get?_eq_none (hscopes ▸ hs)]
  refine ⟨congrArg (fun m => ({ l with current := m } : LoadedGrammars)) hgrammars, fun s hs => ?_⟩
  have hkept : p.report.verdict? s = some true := mem_kept_iff.1 hs
  have hloaded : s ∈ l.scopes := by
    obtain ⟨-, hsound⟩ := (PrunePass.runs_run l.current keep l.scopes).extends (PrunePass.sound_start _)
    rw [← hscopes]
    exact hsound.loaded s (hsound.visited s (by rw [hkept]; rfl))
  exact mem_kept_iff.2 ((hstaged s hloaded).kept hkept)

theorem chain_wellFormed : chain.WellFormed :=
  have h := Grammar.distinct_ofPatterns
  wellFormed_after [.insert _ (((h "a" _).addEntry "one" _).addEntry "two" _), .insert _ (h "b" _)]

theorem chain_prune_stages : ((chain.prune ["k", "x"]).2.prune ["k"]).2 = (chain.prune ["k"]).2 ∧
    ∀ s ∈ (chain.prune ["k"]).1.kept, s ∈ (chain.prune ["k", "x"]).1.kept := by
  refine prune_stages chain ["k"] ["k", "x"] chain_wellFormed chain_acyclic.layered fun s hs => ?_
  exact List.mem_append_left ["x"] hs

end LoadedGrammars

end ScopeActions
