import Mathlib.Logic.Relation
import ScopeActions.Proofs.Grammar.Distinct
import ScopeActions.Proofs.Grammar.Live
/-!
# Pruning without circles between grammars

Where no grammar reaches itself through includes of other grammars, a walk never asks about a grammar whose own
walk goes on. All answers are then right, and pruning leaves of each grammar exactly what is live in the set as
it was loaded (`LoadedGrammars.prune_exact`).
-/

namespace ScopeActions

namespace Grammar

/-- The grammar of one scope includes that of another, from a rule that its root patterns lead to. -/
def Includes (look : String → Option Grammar) (s t : String) : Prop :=
  ∃ g, look s = some g ∧ (look t).isSome ∧ ∃ r, g.Leads r ∧ r.inclusion? = some (.grammar t)

/-- No grammar reaches itself through includes of other grammars. -/
def Acyclic (look : String → Option Grammar) : Prop :=
  ∀ s, ¬Relation.TransGen (Includes look) s s

/-- Each grammar includes only grammars of a smaller rank. -/
def ranked (rank : String → Nat) (gs : Assoc Grammar) : Bool :=
  gs.all fun b => (b.2.rules false).all fun r =>
    match r.inclusion? with
    | some (.grammar t) => !Assoc.contains gs t || rank t < rank b.1
    | _ => true

theorem acyclic_of_ranked {gs : Assoc Grammar} (rank : String → Nat) (h : ranked rank gs = true) :
    Acyclic (Assoc.get? gs) := by
  have step : ∀ s t, Includes (Assoc.get? gs) s t → rank t < rank s := by
    rintro s t ⟨g, hg, ht, r, hr, hi⟩
    have hrule := List.all_eq_true.1 (List.all_eq_true.1 h _ (Assoc.mem_of_get? hg)) r hr.mem_rules
    rw [hi] at hrule
    have ht : Assoc.contains gs t = true := ht
    simpa [ht] using hrule
  have descends : ∀ s t, Relation.TransGen (Includes (Assoc.get? gs)) s t → rank t < rank s := by
    intro s t ht
    induction ht with
    | single h1 => exact step _ _ h1
    | tail _ h1 ih => exact Nat.lt_trans (step _ _ h1) ih
  intro s hs
  exact Nat.lt_irrefl _ (descends s s hs)

end Grammar

/-! ## The right verdicts -/

namespace Verdicts

open Classical in
/-- The verdicts that keep a grammar when it can give a scope to keep. -/
noncomputable def right (gs : Assoc Grammar) (keep : ScopeSet) : Verdicts :=
  { keep, loaded := Assoc.keys gs, on := fun t => decide (Grammar.LiveScope (Assoc.get? gs) keep t) }

variable {gs : Assoc Grammar} {keep : ScopeSet}

open Classical in
theorem on_right {t : String} : (right gs keep).on t = true ↔ Grammar.LiveScope (Assoc.get? gs) keep t :=
  decide_eq_true_iff

theorem liveScope_of_not_loaded {t : String} (ht : t ∉ Assoc.keys gs) :
    Grammar.LiveScope (Assoc.get? gs) keep t ↔ t ∈ keep := by
  refine ⟨fun h => h.resolve_right ?_, .inl⟩
  rintro ⟨g, hg, -⟩
  exact ht (Assoc.mem_keys_of_get? hg)

theorem foreign_right {t : String} :
    (right gs keep).foreign t = true ↔ Grammar.LiveScope (Assoc.get? gs) keep t := by
  unfold foreign
  split
  · exact on_right
  · next ht =>
    have ht : t ∉ Assoc.keys gs := fun h => ht (List.contains_iff_mem.2 h)
    rw [liveScope_of_not_loaded ht]
    exact List.contains_iff_mem

end Verdicts

namespace Grammar
variable {gs : Assoc Grammar} {keep : ScopeSet} {g : Grammar} {r : Rule}

/-- By the right verdicts, a rule is live when it is live in the set. -/
theorem live_iff_liveIn : r.LiveIn keep (Verdicts.right gs keep).foreign g.entries ↔ g.Live (Assoc.get? gs) keep r :=
  ⟨live_of_liveIn fun _ => Verdicts.foreign_right.1, liveIn_of_live fun _ => Verdicts.foreign_right.2⟩

theorem sees_iff_live (hr : g.Leads r) :
    (Verdicts.right gs keep).sees (g.liveNames (Verdicts.right gs keep)) r = true ↔ g.Live (Assoc.get? gs) keep r :=
  (sees_iff_liveIn hr).trans live_iff_liveIn

/-- A walk with the right answers keeps a root pattern when one is live. -/
theorem patternsLeft_right (hk : g.Distinct) :
    let V := Verdicts.right gs keep
    ((g.inquiry V.keep V.loaded).value V.on).patternsLeft = true ↔ ∃ x ∈ g.patterns, g.Live (Assoc.get? gs) keep x := by
  intro V
  rw [(inquiry_value hk).2, List.any_eq_true]
  exact exists_congr fun x => and_congr_right fun hx => sees_iff_live (.root hx)

end Grammar

namespace Grammar

/-- The entry is live and is included by a rule that the root patterns lead to. -/
def Retains (look : String → Option Grammar) (keep : ScopeSet) (g : Grammar) (n : String) : Prop :=
  (∃ r, g.Leads r ∧ r.inclusion? = some (.entry n)) ∧ ∃ e, Assoc.get? g.entries n = some e ∧ g.Live look keep e

variable {gs : Assoc Grammar} {keep : ScopeSet} {g : Grammar}

theorem mem_liveNames_right {n : String} :
    n ∈ g.liveNames (Verdicts.right gs keep) ↔ g.Retains (Assoc.get? gs) keep n := by
  rw [mem_liveNames, reach_iff]
  constructor
  · rintro ⟨⟨-, hr⟩, e, he, hl⟩
    exact ⟨hr, e, he, live_iff_liveIn.1 hl⟩
  · rintro ⟨hr, e, he, hl⟩
    exact ⟨⟨Assoc.contains_of_get? he, hr⟩, e, he, live_iff_liveIn.2 hl⟩

open Classical in
/-- What a walk with the right verdicts leaves is what is live, and no entries but those that are led to. -/
theorem left_right (hk : g.Distinct) : g.left (Verdicts.right gs keep) =
    g.restrict (fun r => decide (g.Live (Assoc.get? gs) keep r)) fun n => decide (g.Retains (Assoc.get? gs) keep n) := by
  have hp : ∀ r, g.Leads r → (Verdicts.right gs keep).sees (g.liveNames (Verdicts.right gs keep)) r =
      decide (g.Live (Assoc.get? gs) keep r) := by
    intro r hr
    rw [Bool.eq_iff_iff, sees_iff_live hr, decide_eq_true_iff]
  have hl : ∀ n, (g.liveNames (Verdicts.right gs keep)).contains n = decide (g.Retains (Assoc.get? gs) keep n) := by
    intro n
    rw [Bool.eq_iff_iff, List.contains_iff_mem, mem_liveNames_right, decide_eq_true_iff]
  refine restrict_congr ?_ (fun b _ => hl b.1) ?_
  · intro r hr x hx
    exact hp x ((Leads.root hr).of_mem_visit hx)
  · intro b hb hleft x hx
    obtain ⟨hr, -⟩ := leads_of_mem_liveNames (List.contains_iff_mem.1 hleft) (Assoc.get?_of_mem hk hb)
    exact hp x (hr.of_mem_visit hx)

end Grammar

namespace PrunePass

/-- The pass has decided rightly, and has left of each grammar decided what is to be left of it in `gs`. -/
structure Exact (gs : Assoc Grammar) (keep : ScopeSet) (p : PrunePass) : Prop where
  keys : Assoc.keys p.grammars = Assoc.keys gs
  unvisited : ∀ s ∉ p.visited, Assoc.get? p.grammars s = Assoc.get? gs s
  verdict : ∀ s b, p.report.verdict? s = some b → b = (Verdicts.right gs keep).on s
  grammar : ∀ s, (p.report.verdict? s).isSome →
    Assoc.get? p.grammars s = (Assoc.get? gs s).map (Grammar.leaves (Verdicts.right gs keep))

variable {gs : Assoc Grammar} {keep : ScopeSet} {p q : PrunePass} {s : String} {g : Grammar}

/-- An answer is right unless the walk through the grammar goes on. -/
theorem Exact.answer (h : Exact gs keep p) (hs : Settled p s) (hn : ¬InProgress p s) :
    p.answer keep s = (Verdicts.right gs keep).on s := by
  unfold PrunePass.answer
  cases hv : p.report.verdict? s with
  | some b => exact h.verdict s b hv
  | none =>
    have hs : s ∉ Assoc.keys gs := h.keys ▸ hs.resolve_left fun hm => hn ⟨hm, hv⟩
    rw [Option.getD_none, Bool.eq_iff_iff, Verdicts.on_right, Verdicts.liveScope_of_not_loaded hs]
    exact List.contains_iff_mem

/-- A grammar of the set that is walked through rightly can be finished. -/
theorem Exact.finish {pruned : PrunedGrammar} {b : Bool} (h : Exact gs keep q) (hs : p.Fresh s g)
    (hq : Extends (p.enter s) q) (hg : Assoc.get? gs s = some g) (hb : b = (Verdicts.right gs keep).on s)
    (hgrammar : pruned.grammar = g.leaves (Verdicts.right gs keep)) : Exact gs keep (q.finish s pruned b) := by
  constructor
  · exact (keys_finish (hq.keys ▸ hs.mem_keys)).trans h.keys
  · intro t ht
    have hne : s ≠ t := fun e => ht (e ▸ hq.visited_enter)
    rw [PrunePass.finish, Assoc.get?_put, if_neg hne]
    exact h.unvisited t ht
  · intro t c ht
    rw [verdict?_finish hq hs] at ht
    split at ht
    · next he =>
      rw [he, ← Option.some.inj ht, hb]
    · exact h.verdict t c ht
  · intro t ht
    rw [verdict?_finish hq hs] at ht
    rw [PrunePass.finish, Assoc.get?_put]
    by_cases he : s = t
    · rw [if_pos he, ← he, hg, Option.map_some, hgrammar]
    · rw [if_neg (Ne.symm he)] at ht
      rw [if_neg he]
      exact h.grammar t ht

theorem Exact.diagnosed (h : Exact gs keep p) (d : Diagnostic) : Exact gs keep (p.diagnosed d) where
  keys := h.keys
  unvisited := h.unvisited
  verdict t b ht := h.verdict t b (p.report.verdict?_diagnosed d t ▸ ht)
  grammar t ht := h.grammar t (p.report.verdict?_diagnosed d t ▸ ht)

theorem Exact.enter (h : Exact gs keep p) (s : String) : Exact gs keep (p.enter s) where
  keys := h.keys
  unvisited t ht := h.unvisited t fun hp => ht (List.mem_append_left [s] hp)
  verdict := h.verdict
  grammar := h.grammar

/-- A walk asks about grammars that the grammar includes. -/
theorem includes_of_asked (hg : Assoc.get? gs s = some g) (hd : g.Distinct) {t : String}
    (ht : t ∈ (g.inquiry keep (Assoc.keys gs)).asked (Verdicts.right gs keep).on) :
    Grammar.Includes (Assoc.get? gs) s t := by
  obtain ⟨hl, r, hr, hi⟩ := Grammar.leads_of_asked (V := Verdicts.right gs keep) hd ht
  exact ⟨g, hg, Assoc.contains_iff_mem_keys.2 (List.contains_iff_mem.1 hl), r, hr, hi⟩

/-- Where no circle leads back to a grammar whose walk goes on, a run decides rightly. -/
theorem Runs.exact {α : Type} {x : Inquiry α} {a : α} {p' : PrunePass} (h : Runs keep x p a p') (hp : Sound p)
    (hd : Distinct p) (hacyclic : Grammar.Acyclic (Assoc.get? gs)) (he : Exact gs keep p)
    (hpath : ∀ t ∈ x.asked (Verdicts.right gs keep).on, ∀ u, InProgress p u →
      Relation.TransGen (Grammar.Includes (Assoc.get? gs)) u t) :
    a = x.value (Verdicts.right gs keep).on ∧ Exact gs keep p' := by
  induction h with
  | done a p => exact ⟨rfl, he⟩
  | report _ ih =>
    exact ih (hp.diagnosed _) hd (he.diagnosed _) fun t ht u hu => hpath t ht u (hu.of_extends (.diagnosed _ _))
  | @known _ s k a p p' hs _ ih =>
    have hanswer := he.answer (settled_of_not_fresh hp hs) fun hi =>
      hacyclic s (hpath s (List.mem_cons_self ..) s hi)
    rw [hanswer] at ih
    exact ih hp hd he fun t ht u hu => hpath t (List.mem_cons_of_mem s ht) u hu
  | @walk _ s g pruned k a p q p' hs h _ ih ih' =>
    have hg : Assoc.get? gs s = some g := (he.unvisited s hs.unvisited).symm.trans hs.loaded
    have hdg : g.Distinct := hd s g hs.loaded
    obtain ⟨hq, hsq⟩ := h.extends (hp.enter hs)
    have hdq : Distinct (q.finish s pruned (keep.contains s || pruned.patternsLeft)) := hs.distinct_finish h hp hd _
    rw [he.keys] at ih
    -- what waits for the walk through `s` reaches `s`, so it reaches all that this walk asks about
    obtain ⟨hv, heq⟩ := ih (hp.enter hs) hd (he.enter s) fun t ht u hu => by
      have hst := includes_of_asked hg hdg ht
      by_cases hus : u = s
      · exact hus ▸ .single hst
      · exact (hpath s (List.mem_cons_self ..) u (hu.of_enter hus)).tail hst
    have hb : (keep.contains s || pruned.patternsLeft) = (Verdicts.right gs keep).on s := by
      rw [Bool.eq_iff_iff, Bool.or_eq_true, Verdicts.on_right, hv]
      refine or_congr List.contains_iff_mem (Grammar.patternsLeft_right hdg |>.trans ?_)
      constructor
      · intro hx
        exact ⟨g, hg, hx⟩
      · rintro ⟨h, hh, hx⟩
        rwa [Option.some.inj (hg.symm.trans hh)]
    have hfinish := heq.finish hs hq hg hb (hv ▸ (Grammar.inquiry_value (V := Verdicts.right gs keep) hdg).1)
    obtain ⟨ha, he'⟩ := ih' (hsq.finish hq hs) hdq hfinish fun t ht u hu => by
      rw [hb] at ht
      exact hpath t (List.mem_cons_of_mem s ht) u (hu.of_extends (hq.finish hs))
    refine ⟨?_, he'⟩
    rw [ha, hb, Inquiry.value]

theorem exact_start : Exact gs keep { grammars := gs } :=
  ⟨rfl, fun _ _ => rfl, fun _ _ h => (by cases h), fun _ h => (by cases h)⟩

/-- A pass over a set without circles decides rightly. -/
theorem exact_run (hd : ∀ s g, Assoc.get? gs s = some g → g.Distinct)
    (hacyclic : Grammar.Acyclic (Assoc.get? gs)) (scopes : List String) : Exact gs keep (run gs keep scopes) := by
  refine ((runs_run gs keep scopes).exact (sound_start gs) hd hacyclic exact_start ?_).2
  intro _ _ _ hu
  exact absurd hu.visited List.not_mem_nil

end PrunePass

namespace LoadedGrammars

theorem mem_kept_iff {r : PruneSummary} {s : String} : s ∈ r.kept ↔ r.verdict? s = some true := by
  unfold PruneSummary.verdict?
  split
  · next h => simpa using h
  · next h => split <;> simpa using h

/-- The grammars after pruning a set without circles. -/
theorem get?_prune {l : LoadedGrammars} (keep : ScopeSet) (hl : l.Distinct) (ha : Grammar.Acyclic l.get?) (t : String) :
    (l.prune keep).2.get? t = (l.get? t).map (Grammar.leaves (Verdicts.right l.current keep)) := by
  have he : PrunePass.Exact l.current keep (PrunePass.run l.current keep l.scopes) :=
    PrunePass.exact_run hl.current ha l.scopes
  by_cases ht : t ∈ l.scopes
  · exact he.grammar t (PrunePass.decided_run l.current keep t ht)
  · have unloaded : ∀ gs : Assoc Grammar, Assoc.keys gs = l.scopes → Assoc.get? gs t = none := by
      intro gs hkeys
      rw [← Option.not_isSome_iff_eq_none]
      intro h
      exact ht (hkeys ▸ Assoc.contains_iff_mem_keys.1 h)
    rw [get?, get?, unloaded l.current rfl, Option.map_none]
    exact unloaded _ he.keys

open Classical in
/-- Where no grammar reaches itself through other grammars, pruning leaves exactly the live elements of every list
of patterns and the live entries that are led to, and it keeps the grammars that can give a scope to keep. -/
theorem prune_exact (l : LoadedGrammars) (keep : ScopeSet) (hl : l.Distinct) (ha : Grammar.Acyclic l.get?) {s : String}
    {g : Grammar} (hg : l.get? s = some g) :
    (g.root.patterns.isSome → (l.prune keep).2.get? s =
        some (g.restrict (fun r => decide (g.Live l.get? keep r)) fun n => decide (g.Retains l.get? keep n))) ∧
      (g.root.patterns = none → (l.prune keep).2.get? s = some g) ∧
      (s ∈ (l.prune keep).1.kept ↔ Grammar.LiveScope l.get? keep s) := by
  have he : PrunePass.Exact l.current keep (PrunePass.run l.current keep l.scopes) :=
    PrunePass.exact_run hl.current ha l.scopes
  have hdecided : ((PrunePass.run l.current keep l.scopes).report.verdict? s).isSome :=
    PrunePass.decided_run l.current keep s (Assoc.mem_keys_of_get? hg)
  have hgrammar : (l.prune keep).2.get? s = some (g.leaves (Verdicts.right l.current keep)) := by
    rw [get?_prune keep hl ha, hg, Option.map_some]
  unfold Grammar.leaves at hgrammar
  refine ⟨fun hp => ?_, fun hp => ?_, ?_⟩
  · rw [hgrammar, if_pos hp, Grammar.left_right (hl.current s g hg)]
    rfl
  · rw [hgrammar, hp]
    rfl
  · obtain ⟨b, hb⟩ := Option.isSome_iff_exists.1 hdecided
    change s ∈ (PrunePass.run l.current keep l.scopes).report.kept ↔ _
    rw [mem_kept_iff, hb, he.verdict s b hb, Option.some.injEq, Verdicts.on_right]
    rfl

/-- A grammar that includes another, with entries that include themselves and each other. -/
def chain : LoadedGrammars :=
  let a := Grammar.ofPatterns "a" [.including "#one", .including "b#part", .including "c"]
  let a := (a.addEntry "one" (.including "#two")).addEntry "two" (.mk {} (some [.including "#one"]) none none none none)
  let b := Grammar.ofPatterns "b" [.named "k", .named "x"]
  (((({} : LoadedGrammars).insert a).2).insert b).2

theorem chain_distinct : chain.Distinct := by
  have h := Grammar.distinct_ofPatterns
  exact (distinct_empty.insert (((h _ _).addEntry _ _).addEntry _ _)).insert (h _ _)

theorem chain_acyclic : Grammar.Acyclic chain.get? :=
  Grammar.acyclic_of_ranked (fun s => if s = "a" then 1 else 0) rfl

open Classical in
theorem chain_exact : ∃ g, chain.get? "a" = some g ∧ g.root.patterns.isSome ∧
    (chain.prune ["k"]).2.get? "a" = some (g.restrict (fun r => decide (g.Live chain.get? ["k"] r))
      fun n => decide (g.Retains chain.get? ["k"] n)) :=
  ⟨_, rfl, rfl, (prune_exact chain ["k"] chain_distinct chain_acyclic (s := "a") rfl).1 rfl⟩

end LoadedGrammars

end ScopeActions
