import ScopeActions.Proofs.Grammar.History
import ScopeActions.Proofs.Grammar.Reached
import ScopeActions.Proofs.Grammar.Reports
/-!
# What a pass reports

What a pass reports about a grammar is what its own walk through the grammar reports (`PrunePass.told_run`). So a
reserved include is reported just when it stands beneath a root pattern or beneath an entry that is left
(`LoadedGrammars.reserved_reported`). In an entry that is not live it is lost without a word, though the root patterns
lead there (`LoadedGrammars.reserved_lost`).
-/

namespace ScopeActions

theorem PruneSummary.mem_diagnosed {r : PruneSummary} {d d' : Diagnostic} :
    d ∈ (r.diagnosed d').diagnostics ↔ d ∈ r.diagnostics ∨ d = d' := by
  unfold diagnosed
  split
  · next h =>
    refine ⟨.inl, ?_⟩
    rintro (hd | rfl)
    · exact hd
    · exact List.contains_iff_mem.1 h
  · rw [List.mem_append, List.mem_singleton]

@[simp] theorem Inquiry.reported_askAll (o : String → Bool) (ss : List String) : (askAll ss).reported o = [] := by
  induction ss with
  | nil => rfl
  | cons s ss ih => exact ih

namespace PrunePass

/-- Each grammar has the scope that it is found by, and each of its entries once. -/
structure Named (gs : Assoc Grammar) : Prop where
  scopeName : ∀ s g, Assoc.get? gs s = some g → g.scopeName = s
  distinct : ∀ s g, Assoc.get? gs s = some g → g.Distinct

/-- What is left of a grammar, and what is reported about it, is what one walk leaves and reports. -/
def Told (gs : Assoc Grammar) (keep : ScopeSet) (p : PrunePass) (s : String) : Prop :=
  ∃ g V, Assoc.get? gs s = some g ∧ V.keep = keep ∧ V.loaded = Assoc.keys gs ∧
    Assoc.get? p.grammars s = some (g.leaves V) ∧
    ∀ d, d.grammar = s → (d ∈ p.report.diagnostics ↔ d ∈ (g.inquiry V.keep V.loaded).reported V.on)

/-- All reports are about grammars visited, and those about a grammar decided come from its walk. -/
structure Reporting (gs : Assoc Grammar) (keep : ScopeSet) (p : PrunePass) : Prop extends Untouched gs p where
  visited : ∀ d ∈ p.report.diagnostics, d.grammar ∈ p.visited
  told : ∀ s, (p.report.verdict? s).isSome → Told gs keep p s

variable {gs : Assoc Grammar} {keep : ScopeSet} {α : Type} {x : Inquiry α} {a : α} {p q p' : PrunePass} {s t : String}
  {g : Grammar} {d : Diagnostic} {pruned : PrunedGrammar} {b : Bool}

theorem diagnostics_finish : (q.finish s pruned b).report.diagnostics = q.report.diagnostics := by
  cases b <;> rfl

/-- The walk through a grammar reports about this grammar. -/
theorem Fresh.grammar_of_mem_reported (hs : p.Fresh s g) (hgs : Named gs) (hu : Untouched gs p)
    (hd : d ∈ (g.inquiry keep (Assoc.keys p.grammars)).reported (q.answer keep)) : d.grammar = s := by
  have hg := hu.get?_fresh hs
  exact (Grammar.grammar_of_mem_reported (V := verdicts keep p q) (hgs.distinct s g hg) hd).trans (hgs.scopeName s g hg)

/-- About a grammar that was visited before, a run reports what its own inquiry reports: walks begun on the way are
through other grammars. -/
theorem Runs.mem_diagnostics (h : Runs keep x p a p') (hp : Sound p) (hgs : Named gs) (hu : Untouched gs p)
    (hd : d.grammar ∈ p.visited) :
    d ∈ p'.report.diagnostics ↔ d ∈ p.report.diagnostics ∨ d ∈ x.reported (p'.answer keep) := by
  induction h with
  | done a p => simp [Inquiry.reported]
  | @report _ d' x a p p' _ ih =>
    rw [ih (hp.diagnosed d') (hu.diagnosed d') hd, Inquiry.reported, List.mem_cons, ← or_assoc]
    exact or_congr_left PruneSummary.mem_diagnosed
  | known hs h ih =>
    rw [ih hp hu hd, Inquiry.reported, h.answer_known hp hs]
  | @walk _ s g pruned k a p q p' hs h h' ih ih' =>
    obtain ⟨hq, hsq⟩ := h.extends (hp.enter hs)
    have hfinish : Sound (q.finish s pruned (keep.contains s || pruned.patternsLeft)) := hsq.finish hq hs
    have huq : Untouched gs q := (hu.enter s).extends hq
    have hwalk := ih (hp.enter hs) (hu.enter s) (List.mem_append_left [s] hd)
    have hother : d ∉ (g.inquiry keep (Assoc.keys p.grammars)).reported (q.answer keep) := by
      intro hmem
      exact hs.unvisited (hs.grammar_of_mem_reported hgs hu hmem ▸ hd)
    have hrest := ih' hfinish (huq.finish hs hq) (hq.visited _ (List.mem_append_left [s] hd))
    rw [hrest, Inquiry.reported, h'.answer_finished hs hq hfinish, diagnostics_finish]
    refine or_congr_left ?_
    exact hwalk.trans (or_iff_left hother)

/-! ## The invariant -/

theorem Told.of_eq (h : Told gs keep p s) (hg : Assoc.get? q.grammars s = Assoc.get? p.grammars s)
    (hd : ∀ d, d.grammar = s → (d ∈ q.report.diagnostics ↔ d ∈ p.report.diagnostics)) : Told gs keep q s := by
  obtain ⟨g, V, hs, hkeep, hloaded, hleft, hreports⟩ := h
  exact ⟨g, V, hs, hkeep, hloaded, hg.trans hleft, fun d he => (hd d he).trans (hreports d he)⟩

theorem reporting_start (gs : Assoc Grammar) (keep : ScopeSet) : Reporting gs keep { grammars := gs } where
  toUntouched := untouched_start gs
  visited d hd := by cases hd
  told s hs := by cases hs

/-- While a walk goes on, reports about its grammar change nothing for those decided. -/
theorem Reporting.diagnosed (h : Reporting gs keep p) (hd : InProgress p d.grammar) : Reporting gs keep (p.diagnosed d) where
  toUntouched := h.toUntouched.diagnosed d
  visited d' hd' := by
    rcases PruneSummary.mem_diagnosed.1 hd' with hd' | rfl
    · exact h.visited d' hd'
    · exact hd.visited
  told s hs := by
    have hs' : (p.report.verdict? s).isSome := p.report.verdict?_diagnosed d s ▸ hs
    refine (h.told s hs').of_eq rfl fun d' hd' => PruneSummary.mem_diagnosed.trans (or_iff_left ?_)
    rintro rfl
    rw [← hd', hd.undecided] at hs'
    cases hs'

theorem Reporting.enter (h : Reporting gs keep p) (s : String) : Reporting gs keep (p.enter s) where
  toUntouched := h.toUntouched.enter s
  visited d hd := List.mem_append_left [s] (h.visited d hd)
  told := h.told

theorem Reporting.finish (h : Reporting gs keep q) (hs : p.Fresh s g) (hq : Extends (p.enter s) q)
    (ht : Told gs keep (q.finish s pruned b) s) : Reporting gs keep (q.finish s pruned b) where
  toUntouched := h.toUntouched.finish hs hq
  visited d hd := h.visited d (diagnostics_finish ▸ hd)
  told t hv := by
    rw [verdict?_finish hq hs] at hv
    split at hv
    · next he => exact he ▸ ht
    · next hne =>
      refine (h.told t hv).of_eq ?_ fun d _ => by rw [diagnostics_finish]
      rw [PrunePass.finish, Assoc.get?_put, if_neg (Ne.symm hne)]

/-- A grammar whose walk ends is left, and reported about, as the walk says. -/
theorem Runs.told_finish (h : Runs keep (g.inquiry keep (Assoc.keys p.grammars)) (p.enter s) pruned q) (hp : Sound p)
    (hs : p.Fresh s g) (hgs : Named gs) (hr : Reporting gs keep p) : Told gs keep (q.finish s pruned b) s := by
  have hg := hr.get?_fresh hs
  have hpruned := (h.value_eq (hp.enter hs)).1
  refine ⟨g, verdicts keep p q, hg, rfl, hr.keys, ?_, fun d hd => ?_⟩
  · rw [PrunePass.finish, Assoc.get?_put, if_pos rfl, hpruned]
    exact congrArg some (Grammar.inquiry_value (V := verdicts keep p q) (hgs.distinct s g hg)).1
  · have hvisited : d.grammar ∈ (p.enter s).visited := hd ▸ mem_visited_enter p d.grammar
    have hbefore : d ∉ (p.enter s).report.diagnostics := fun hmem => hs.unvisited (hd ▸ hr.visited d hmem)
    rw [diagnostics_finish]
    exact (h.mem_diagnostics (hp.enter hs) hgs (hr.enter s).toUntouched hvisited).trans (or_iff_right hbefore)

/-- A run that itself reports only about grammars whose walks go on keeps this. -/
theorem Runs.reporting (h : Runs keep x p a p') (hp : Sound p) (hgs : Named gs) (hr : Reporting gs keep p)
    (hx : ∀ d ∈ x.reported (p'.answer keep), InProgress p d.grammar) : Reporting gs keep p' := by
  induction h with
  | done a p => exact hr
  | @report _ d x a p p' _ ih =>
    refine ih (hp.diagnosed d) (hr.diagnosed (hx d List.mem_cons_self)) fun d' hd' => ?_
    exact (hx d' (List.mem_cons_of_mem d hd')).extends (.diagnosed p d)
  | known hs h ih =>
    rw [Inquiry.reported, h.answer_known hp hs] at hx
    exact ih hp hr hx
  | @walk _ s g pruned k a p q p' hs h h' ih ih' =>
    obtain ⟨hq, hsq⟩ := h.extends (hp.enter hs)
    have hfinish : Sound (q.finish s pruned (keep.contains s || pruned.patternsLeft)) := hsq.finish hq hs
    rw [Inquiry.reported, h'.answer_finished hs hq hfinish] at hx
    have hwalk : Reporting gs keep q := by
      refine ih (hp.enter hs) (hr.enter s) fun d hd => ?_
      rw [hs.grammar_of_mem_reported hgs hr.toUntouched hd]
      exact hs.inProgress_enter
    refine ih' hfinish (hwalk.finish hs hq (h.told_finish hp hs hgs hr)) fun d hd => ?_
    exact (hx d hd).extends (hq.finish hs)

/-- A pass reports only about grammars that it visits, and about those decided what their walks report. -/
theorem reporting_run (hgs : Named gs) (keep : ScopeSet) (scopes : List String) :
    Reporting gs keep (run gs keep scopes) := by
  have hx : ∀ d ∈ (Inquiry.askAll scopes).reported ((run gs keep scopes).answer keep),
      InProgress { grammars := gs } d.grammar := by simp
  exact (runs_run gs keep scopes).reporting (sound_start gs) hgs (reporting_start gs keep) hx

/-- What a pass leaves of the grammars that it decides, and reports about them, is what their walks leave and report. -/
theorem told_run (hgs : Named gs) (keep : ScopeSet) (scopes : List String) (s : String)
    (hs : s ∈ (run gs keep scopes).report.verdicts) : Told gs keep (run gs keep scopes) s :=
  (reporting_run hgs keep scopes).told s (PruneSummary.isSome_verdict?.2 hs)

end PrunePass

namespace Grammar
variable {V : Verdicts} {g : Grammar}

/-- The entries left are the live ones. -/
theorem contains_entries_leaves (hg : g.root.patterns.isSome) {n : String} :
    Assoc.contains (g.leaves V).entries n = true ↔ n ∈ g.liveNames V := by
  rw [leaves, if_pos hg, Assoc.contains_iff_mem_keys, left, keys_entries_restrict, List.mem_filter, List.contains_iff_mem]
  exact and_iff_right_of_imp (mem_keys_of_mem_liveNames n)

/-- A walk reports a reserved include just when it stands beneath a root pattern or beneath an entry left. -/
theorem reserved_mem_reported (hg : g.root.patterns.isSome) (hk : g.Distinct) {i : String}
    (hi : Inclusion.parse i = .reserved) :
    ⟨.reservedInclude, g.scopeName, i⟩ ∈ (g.inquiry V.keep V.loaded).reported V.on ↔ ∃ r, r.head.inclusion = some i ∧
      ((∃ p ∈ g.patterns, r ∈ p.visit false) ∨ ∃ n e, Assoc.get? g.entries n = some e ∧
        Assoc.contains (g.leaves V).entries n = true ∧ r ∈ e.visit false) := by
  rw [mem_reported_inquiry hg hk]
  refine exists_congr fun r => ?_
  rw [V.diagnostic?_eq_reserved hi, and_comm]
  refine and_congr_right fun _ => or_congr_right ⟨?_, ?_⟩
  · rintro ⟨n, hn, e, he, hr⟩
    exact ⟨n, e, he, (contains_entries_leaves hg).2 hn, hr⟩
  · rintro ⟨n, e, he, hn, hr⟩
    exact ⟨n, (contains_entries_leaves hg).1 hn, e, he, hr⟩

end Grammar

namespace LoadedGrammars

theorem WellFormed.grammarsNamed {l : LoadedGrammars} (hl : l.WellFormed) : PrunePass.Named l.current :=
  ⟨hl.named, hl.distinct.current⟩

/-- A pass reports a reserved include of a grammar, which it is asked about or decides on the way, just when the include
stands beneath a root pattern or beneath an entry that is left. So one that the root patterns lead to is reported unless
it stands in an entry that is removed. -/
theorem reserved_reported (l : LoadedGrammars) (keep : ScopeSet) (scopes : List String) (hl : l.WellFormed) :
    let pass := PrunePass.run l.current keep scopes
    ∀ s, s ∈ scopes ∨ s ∈ pass.report.verdicts → ∀ g, l.get? s = some g → g.root.patterns.isSome →
      ∃ g', Assoc.get? pass.grammars s = some g' ∧ ∀ i, Inclusion.parse i = .reserved →
        (⟨.reservedInclude, s, i⟩ ∈ pass.report.diagnostics ↔ ∃ r, r.head.inclusion = some i ∧
          ((∃ p ∈ g.patterns, r ∈ p.visit false) ∨
            ∃ n e, Assoc.get? g.entries n = some e ∧ Assoc.contains g'.entries n = true ∧ r ∈ e.visit false)) ∧
        ∀ r, g.Leads r → r.head.inclusion = some i → ⟨.reservedInclude, s, i⟩ ∈ pass.report.diagnostics ∨
          ∃ n e, Assoc.get? g.entries n = some e ∧ Assoc.contains g'.entries n = false ∧ r ∈ e.visit false := by
  intro pass s hs g hg hpatterns
  have hdecided : s ∈ pass.report.verdicts := by
    refine hs.elim (fun hs => ?_) id
    exact PruneSummary.isSome_verdict?.1 (PrunePass.decided_run_of_mem keep hs (Assoc.mem_keys_of_get? hg))
  obtain ⟨k, V, hk, -, -, hleft, hreports⟩ := PrunePass.told_run hl.grammarsNamed keep scopes s hdecided
  obtain rfl := Option.some.inj (hg.symm.trans hk)
  refine ⟨g.leaves V, hleft, fun i hi => ?_⟩
  have hiff := (hreports ⟨.reservedInclude, s, i⟩ rfl).trans
    (hl.named s g hg ▸ Grammar.reserved_mem_reported hpatterns (hl.distinct.current s g hg) hi)
  refine ⟨hiff, fun r hr hri => ?_⟩
  rcases hr.beneath with hroot | ⟨n, e, -, he, hmem⟩
  · exact .inl (hiff.2 ⟨r, hri, .inl hroot⟩)
  · cases hn : Assoc.contains (g.leaves V).entries n with
    | false => exact .inr ⟨n, e, he, hn, hmem⟩
    | true => exact .inl (hiff.2 ⟨r, hri, .inr ⟨n, e, he, hn, hmem⟩⟩)

/-- One grammar, whose root pattern includes an entry. -/
def withPart (part : Rule) : LoadedGrammars :=
  (({} : LoadedGrammars).insert ((Grammar.ofPatterns "a" [.including "#part"]).addEntry "part" part)).2

theorem withPart_wellFormed (part : Rule) : (withPart part).WellFormed :=
  wellFormed_after [.insert _ ((Grammar.distinct_ofPatterns "a" _).addEntry "part" part)]

/-- An entry that includes the grammar itself and gives a scope. -/
def selfOrNamed : Rule :=
  .mk {} (some [.named "k", .including "$self"]) none none none none

/-- The scope keeps the entry, so the include in it is reported. -/
theorem reserved_reported_live :
    let l := withPart selfOrNamed
    ⟨.reservedInclude, "a", "$self"⟩ ∈ (PrunePass.run l.current ["k"] l.scopes).report.diagnostics := by
  intro l
  have hentry : ((Assoc.get? (PrunePass.run l.current ["k"] l.scopes).grammars "a").any fun g =>
      Assoc.contains g.entries "part") = true := by decide +kernel
  obtain ⟨g', hg', hreserved⟩ := reserved_reported l ["k"] l.scopes (withPart_wellFormed _) "a"
    (.inl List.mem_cons_self) _ rfl rfl
  obtain ⟨hiff, -⟩ := hreserved "$self" rfl
  have hcontains : Assoc.contains g'.entries "part" = true := by
    rw [hg', Option.any_some] at hentry
    exact hentry
  have hchild : Rule.including "$self" ∈ selfOrNamed.children := Rule.mem_children.2 (.inr (List.mem_pair.2 (.inr rfl)))
  have hmem : Rule.including "$self" ∈ selfOrNamed.visit false := Rule.mem_visit_of_child hchild (Rule.self_mem_visit _)
  exact hiff.2 ⟨.including "$self", rfl, .inr ⟨"part", selfOrNamed, rfl, hcontains, hmem⟩⟩

/-- The root pattern leads to the entry, which includes the grammar itself; but the entry is removed, and nothing is
reported. -/
theorem reserved_lost :
    let l := withPart (.including "$self")
    l.WellFormed ∧ ∃ g, l.get? "a" = some g ∧ g.root.patterns.isSome ∧ g.Leads (.including "$self") ∧
      Inclusion.parse "$self" = .reserved ∧ (l.prune ["k"]).1.verdict? "a" = some false ∧
      (l.prune ["k"]).1.diagnostics = [] := by
  intro l
  refine ⟨withPart_wellFormed _, _, rfl, rfl, ?_, rfl, ?_, ?_⟩
  · have hroot := Grammar.Leads.root (g := (Grammar.ofPatterns "a" [.including "#part"]).addEntry "part"
      (.including "$self")) List.mem_cons_self
    exact hroot.entry rfl rfl
  · decide +kernel
  · decide +kernel

end LoadedGrammars

end ScopeActions
