import ScopeActions.Proofs.Grammar.Lenient
import ScopeActions.Proofs.Grammar.Reached
/-!
# Pruning in layers

Where no two grammars reach each other, every walk goes by the verdicts on the other grammars that it asks about,
and about its own grammar by whether its own scope is to be kept (`PrunePass.layers_run`). What is decided about a
grammar then follows from what is decided about the grammars below it.
-/

namespace ScopeActions

namespace Grammar

/-- No two grammars reach each other through includes of other grammars. -/
def Layered (look : String → Option Grammar) : Prop :=
  ∀ s t, Relation.ReflTransGen (Includes look) s t → Relation.ReflTransGen (Includes look) t s → s = t

theorem Acyclic.layered {look : String → Option Grammar} (h : Acyclic look) : Layered look := by
  intro s t hst hts
  rcases Relation.reflTransGen_iff_eq_or_transGen.1 hst with hst | hst
  · exact hst.symm
  · exact absurd (hst.trans_left hts) (h s)

variable {gs : Assoc Grammar}

open Classical in
/-- What holds of a grammar when it holds of the others that it includes holds of every grammar. -/
theorem Layered.induct (h : Layered (Assoc.get? gs)) {P : String → Prop}
    (step : ∀ s, (∀ t, t ≠ s → Includes (Assoc.get? gs) s t → P t) → P s) (s : String) : P s := by
  -- fewer grammars are reached from one that is included
  let reached (s : String) : List String :=
    (Assoc.keys gs).filter fun t => decide (Relation.ReflTransGen (Includes (Assoc.get? gs)) s t)
  induction hn : (reached s).length using Nat.strongRecOn generalizing s with
  | _ n ih =>
    refine step s fun t hne hst => ih _ ?_ t rfl
    have hreached : reached t = (reached s).filter fun u => decide (Relation.ReflTransGen (Includes (Assoc.get? gs)) t u) := by
      rw [List.filter_filter]
      refine List.filter_congr fun u _ => ?_
      rw [Bool.eq_iff_iff, Bool.and_eq_true, decide_eq_true_iff, decide_eq_true_iff, iff_self_and]
      exact fun htu => htu.head hst
    have hs : s ∈ reached s := by
      obtain ⟨g, hg, -⟩ := hst
      exact List.mem_filter.2 ⟨Assoc.mem_keys_of_get? hg, decide_eq_true .refl⟩
    rw [← hn, hreached, List.length_filter_lt_length_iff_exists]
    exact ⟨s, hs, fun hts => hne (h t s (of_decide_eq_true hts) (.single hst))⟩

end Grammar

namespace PrunePass

variable {gs : Assoc Grammar} {keep : ScopeSet} {α : Type} {x : Inquiry α} {a : α} {p q p' : PrunePass} {s t : String}
  {g : Grammar} {pruned : PrunedGrammar} {b : Bool} {V : Verdicts}

/-- The verdicts by which the grammar of `s` is decided: those of the pass on the other grammars that it includes. -/
structure Informed (gs : Assoc Grammar) (keep : ScopeSet) (p : PrunePass) (s : String) (V : Verdicts) : Prop where
  keep_eq : V.keep = keep
  loaded_eq : V.loaded = Assoc.keys gs
  own : V.on s = keep.contains s
  other : ∀ t, t ≠ s → Grammar.Includes (Assoc.get? gs) s t → p.report.verdict? t = some (V.on t)

/-- What is decided about a grammar, and what is left of it, follows from what was decided about those it includes. -/
structure Layers (gs : Assoc Grammar) (keep : ScopeSet) (p : PrunePass) : Prop extends Untouched gs p where
  decided : ∀ s b g, p.report.verdict? s = some b → Assoc.get? gs s = some g → ∃ V, Informed gs keep p s V ∧
    Assoc.get? p.grammars s = some (g.leaves V) ∧ b = (keep.contains s || g.patterns.any (V.sees (g.liveNames V)))

theorem Layers.diagnosed (h : Layers gs keep p) (d : Diagnostic) : Layers gs keep (p.diagnosed d) where
  toUntouched := ⟨h.keys, h.unvisited⟩
  decided s b g hv hg := by
    obtain ⟨V, hV, hrest⟩ := h.decided s b g (p.report.verdict?_diagnosed d s ▸ hv) hg
    exact ⟨V, { hV with other := fun t ht hi => (p.report.verdict?_diagnosed d t).trans (hV.other t ht hi) }, hrest⟩

theorem Layers.enter (h : Layers gs keep p) (s : String) : Layers gs keep (p.enter s) where
  toUntouched := h.toUntouched.enter s
  decided t b g hv hg := by
    obtain ⟨V, hV, hrest⟩ := h.decided t b g hv hg
    exact ⟨V, { hV with }, hrest⟩

/-- Verdicts that are out stay as they are. -/
theorem Informed.finish (h : Informed gs keep q t V) (hs : p.Fresh s g) (hq : Extends (p.enter s) q) :
    Informed gs keep (q.finish s pruned b) t V where
  keep_eq := h.keep_eq
  loaded_eq := h.loaded_eq
  own := h.own
  other u hu hi := by
    have hv := h.other u hu hi
    have hne : u ≠ s := by
      rintro rfl
      rw [hs.undecided_of_extends hq] at hv
      cases hv
    rw [verdict?_finish hq hs, if_neg hne]
    exact hv

theorem Layers.finish (h : Layers gs keep q) (hs : p.Fresh s g) (hq : Extends (p.enter s) q)
    (hg : Assoc.get? gs s = some g) (hV : Informed gs keep q s V) (hgrammar : pruned.grammar = g.leaves V)
    (hb : b = (keep.contains s || g.patterns.any (V.sees (g.liveNames V)))) : Layers gs keep (q.finish s pruned b) where
  toUntouched := h.toUntouched.finish hs hq
  decided t c k hv hk := by
    rw [verdict?_finish hq hs] at hv
    rw [PrunePass.finish, Assoc.get?_put]
    by_cases ht : t = s
    · subst ht
      rw [if_pos rfl] at hv
      cases hv
      obtain rfl := Option.some.inj (hg.symm.trans hk)
      exact ⟨V, hV.finish hs hq, by rw [if_pos rfl, hgrammar], hb⟩
    · rw [if_neg ht] at hv
      obtain ⟨W, hW, hleft, hc⟩ := h.decided t c k hv hk
      exact ⟨W, hW.finish hs hq, by rw [if_neg (Ne.symm ht), hleft], hc⟩

/-- Where no circle leads back to another grammar whose walk goes on, the walk that ends is informed. -/
theorem informed_verdicts (hl : Grammar.Layered (Assoc.get? gs)) (hu : Untouched gs p) (hs : p.Fresh s g)
    (hq : Extends (p.enter s) q) (hvisited : ∀ t, Grammar.Includes (Assoc.get? gs) s t → t ∈ q.visited)
    (hpath : ∀ u, InProgress p u → Relation.ReflTransGen (Grammar.Includes (Assoc.get? gs)) u s) :
    Informed gs keep q s (verdicts keep p q) where
  keep_eq := rfl
  loaded_eq := hu.keys
  own := by
    change q.answer keep s = _
    rw [answer, hs.undecided_of_extends hq, Option.getD_none]
  other t hne ht := by
    change _ = some (q.answer keep t)
    unfold answer
    cases hv : q.report.verdict? t with
    | some b => rfl
    | none =>
      have hprogress : InProgress (p.enter s) t := InProgress.of_extends hq ⟨hvisited t ht, hv⟩
      exact absurd (hl t s (hpath t (hprogress.of_enter hne)) (.single ht)) hne

theorem Runs.layers (h : Runs keep x p a p') (hp : Sound p) (hd : Distinct p) (hl : Grammar.Layered (Assoc.get? gs))
    (hy : Layers gs keep p) (hpath : ∀ t ∈ x.asked (p'.answer keep), ∀ u, InProgress p u →
      Relation.ReflTransGen (Grammar.Includes (Assoc.get? gs)) u t) : Layers gs keep p' := by
  induction h with
  | done a p => exact hy
  | report _ ih => exact ih (hp.diagnosed _) hd (hy.diagnosed _) fun t ht u hu => hpath t ht u (hu.of_extends (.diagnosed _ _))
  | known hs h ih =>
    rw [Inquiry.asked, h.answer_known hp hs] at hpath
    exact ih hp hd hy fun t ht u hu => hpath t (List.mem_cons_of_mem _ ht) u hu
  | @walk _ s g pruned k a p q p' hs h h' ih ih' =>
    obtain ⟨hq, hsq⟩ := h.extends (hp.enter hs)
    have hfinish : Sound (q.finish s pruned (keep.contains s || pruned.patternsLeft)) := hsq.finish hq hs
    rw [Inquiry.asked, h'.answer_finished hs hq hfinish] at hpath
    have hdg : g.Distinct := hd s g hs.loaded
    have hpaths := hpath s List.mem_cons_self
    -- what waits for the walk through `s` reaches `s`, so it reaches all that this walk asks about
    have hwalk := ih (hp.enter hs) hd (hy.enter s) fun t ht u hu => by
      have hst := (hy.mem_asked hs hdg q).1 ht
      by_cases hus : u = s
      · exact hus ▸ .single hst
      · exact (hpaths u (hu.of_enter hus)).tail hst
    have hinformed : Informed gs keep q s (verdicts keep p q) := informed_verdicts hl hy.toUntouched hs hq
      (fun t => h.included_visited hp hs hdg hy.toUntouched) hpaths
    have hvalue := (h.value_eq (hp.enter hs)).1
    obtain ⟨hgrammar, hleft⟩ := Grammar.inquiry_value (V := verdicts keep p q) hdg
    have hdone := hwalk.finish hs hq (hy.get?_fresh hs) hinformed (hvalue ▸ hgrammar)
      (congrArg (keep.contains s || ·) (hvalue ▸ hleft))
    exact ih' hfinish (hs.distinct_finish h hp hd _) hdone fun t ht u hu =>
      hpath t (List.mem_cons_of_mem s ht) u (hu.of_extends (hq.finish hs))

/-- Where no two grammars reach each other, what a pass decides about each follows from what it decides about those
below. -/
theorem layers_run (hd : ∀ s g, Assoc.get? gs s = some g → g.Distinct) (hl : Grammar.Layered (Assoc.get? gs))
    (keep : ScopeSet) (scopes : List String) : Layers gs keep (run gs keep scopes) := by
  have hstart : Layers gs keep { grammars := gs } := ⟨untouched_start gs, fun _ _ _ h => by cases h⟩
  exact (runs_run gs keep scopes).layers (sound_start gs) hd hl hstart fun _ _ _ hu => absurd hu.visited List.not_mem_nil

end PrunePass

end ScopeActions
