import ScopeActions.Proofs.Grammar.Diagnostics
/-!
# Reports without false alarm

Whatever a pass reports, it reports once, and for a cause that is there before the pass: the include stands on a rule of
the grammar, and it is reserved, or names no entry of the grammar, or a grammar that is neither loaded nor to be kept
(`LoadedGrammars.diagnostics_warranted`). That other grammars lose entries on the way, and that some are being walked
through, gives no cause.
-/

namespace ScopeActions

namespace Inclusion

/-- The scope that an include of another grammar names. -/
def scopePart (i : String) : String := String.ofList (i.toList.takeWhile (· != '#'))

/-- What an include refers to, by how it begins. -/
theorem parse_cases (i : String) :
    (parse i = .reserved ∧ i.toList.head? = some '$') ∨
      (∃ n, parse i = .entry n ∧ i = "#" ++ n) ∨ parse i = .grammar (scopePart i) := by
  unfold parse
  split
  · next h => exact .inl ⟨rfl, by rw [h]; rfl⟩
  · next name h => exact .inr (.inl ⟨_, rfl, String.toList_injective (by rw [h, String.toList_append]; simp)⟩)
  · exact .inr (.inr rfl)

end Inclusion

/-- There is cause for the report, in a set of grammars with these scopes and a grammar with these entries. -/
def Diagnostic.Warranted (loaded : List String) (keep : ScopeSet) (entries : List String) (d : Diagnostic) : Prop :=
  match d.kind with
  | .reservedInclude => d.inclusion.toList.head? = some '$'
  | .missingEntry => ∃ n ∉ entries, d.inclusion = "#" ++ n
  | .unknownGrammar => Inclusion.scopePart d.inclusion ∉ loaded ∧ Inclusion.scopePart d.inclusion ∉ keep

/-- A walk reports the include of a rule for a cause. -/
theorem Verdicts.warranted_of_diagnostic? {V : Verdicts} {grammar : String} {entries : List String} {r : Rule}
    {d : Diagnostic} (h : V.diagnostic? grammar entries r = some d) :
    r.head.inclusion = some d.inclusion ∧ d.Warranted V.loaded V.keep entries := by
  obtain ⟨i, hi, h⟩ := Option.bind_eq_some_iff.1 h
  rcases Inclusion.parse_cases i with ⟨hp, hhead⟩ | ⟨n, hp, rfl⟩ | hp
  · rw [hp] at h
    cases h
    exact ⟨hi, hhead⟩
  · rw [hp] at h
    dsimp only at h
    split at h
    · cases h
    · next hn =>
      cases h
      exact ⟨hi, n, by simpa using hn, rfl⟩
  · rw [hp] at h
    dsimp only at h
    split at h
    · cases h
    · next hn =>
      cases h
      rw [Bool.or_eq_true, not_or] at hn
      exact ⟨hi, by simpa using hn.1, by simpa using hn.2⟩

namespace Grammar
variable {V : Verdicts} {g : Grammar}

/-- What a walk reports is the include of a rule of the grammar, and reported for a cause. -/
theorem warranted_of_mem_reported (hk : g.Distinct) {d : Diagnostic}
    (hd : d ∈ (g.inquiry V.keep V.loaded).reported V.on) :
    (∃ r ∈ g.rules false, r.head.inclusion = some d.inclusion) ∧
      d.Warranted V.loaded V.keep (Assoc.keys g.entries) := by
  obtain ⟨r, hr, hdiagnostic⟩ := exists_of_mem_reported hk hd
  obtain ⟨hinclusion, hwarranted⟩ := Verdicts.warranted_of_diagnostic? hdiagnostic
  refine ⟨⟨r, mem_rules.2 (hr.imp_right ?_), hinclusion⟩, hwarranted⟩
  rintro ⟨n, -, e, he, hr⟩
  exact ⟨(n, e), Assoc.mem_of_get? he, hr⟩

end Grammar

theorem PruneSummary.nodup_diagnosed {r : PruneSummary} (h : r.diagnostics.Nodup) (d : Diagnostic) :
    (r.diagnosed d).diagnostics.Nodup := by
  unfold diagnosed
  split
  · exact h
  · next hd =>
    rw [List.contains_iff_mem] at hd
    exact List.nodup_append.2 ⟨h, by simp, by simpa using fun a ha => ne_of_mem_of_not_mem ha hd⟩

namespace PrunePass

/-- Each report is made once. -/
theorem invariant_nodup (keep : ScopeSet) : Invariant keep fun p => p.report.diagnostics.Nodup where
  diagnosed _ d h := PruneSummary.nodup_diagnosed h d
  enter _ _ h := h
  finish p q s g _ _ _ h := by
    intro pruned
    rw [diagnostics_finish]
    exact h

/-- What a pass reports about a grammar, the walk through this grammar reports. -/
theorem mem_reported_of_mem_diagnostics {gs : Assoc Grammar} {keep : ScopeSet} {scopes : List String} (hgs : Named gs)
    {d : Diagnostic} (hd : d ∈ (run gs keep scopes).report.diagnostics) :
    ∃ (g : Grammar) (V : Verdicts), Assoc.get? gs d.grammar = some g ∧ V.keep = keep ∧ V.loaded = Assoc.keys gs ∧
      d ∈ (g.inquiry V.keep V.loaded).reported V.on := by
  have h := reporting_run hgs keep scopes
  -- a pass that has come to its end has decided all that it has visited
  have hext := ((runs_run gs keep scopes).extends (sound_start gs)).1
  have hdecided := hext.decided d.grammar (h.visited d hd) List.not_mem_nil
  obtain ⟨g, V, hg, hkeep, hloaded, -, hreports⟩ := h.told d.grammar hdecided
  exact ⟨g, V, hg, hkeep, hloaded, (hreports d rfl).1 hd⟩

end PrunePass

namespace LoadedGrammars

/-- A pass reports nothing twice, and all that it reports is the include of a rule of a loaded grammar and is reported
for a cause. So a loaded grammar is never reported as unknown, and no entry as missing that the grammar has. -/
theorem diagnostics_warranted (l : LoadedGrammars) (keep : ScopeSet) (scopes : List String) (hl : l.WellFormed) :
    let diagnostics := (PrunePass.run l.current keep scopes).report.diagnostics
    diagnostics.Nodup ∧
      (∀ d ∈ diagnostics, ∃ g, l.get? d.grammar = some g ∧
        (∃ r ∈ g.rules false, r.head.inclusion = some d.inclusion) ∧
        d.Warranted l.scopes keep (Assoc.keys g.entries)) ∧
      (∀ s i, Inclusion.scopePart i ∈ l.scopes → ⟨.unknownGrammar, s, i⟩ ∉ diagnostics) ∧
      ∀ s g n, l.get? s = some g → n ∈ Assoc.keys g.entries → ⟨.missingEntry, s, "#" ++ n⟩ ∉ diagnostics := by
  intro diagnostics
  have hnodup : diagnostics.Nodup :=
    (PrunePass.invariant_nodup keep).runs (PrunePass.runs_run l.current keep scopes) (PrunePass.sound_start l.current)
      List.nodup_nil
  have hcause : ∀ d ∈ diagnostics, ∃ g, l.get? d.grammar = some g ∧
      (∃ r ∈ g.rules false, r.head.inclusion = some d.inclusion) ∧
      d.Warranted l.scopes keep (Assoc.keys g.entries) := by
    intro d hd
    obtain ⟨g, V, hg, hkeep, hloaded, hreported⟩ := PrunePass.mem_reported_of_mem_diagnostics hl.grammarsNamed hd
    have hwarranted := Grammar.warranted_of_mem_reported (hl.distinct.current d.grammar g hg) hreported
    rw [hkeep, hloaded] at hwarranted
    exact ⟨g, hg, hwarranted⟩
  refine ⟨hnodup, hcause, fun s i hs hd => ?_, fun s g n hg hn hd => ?_⟩
  · obtain ⟨g, -, -, hunknown, -⟩ := hcause _ hd
    exact hunknown hs
  · obtain ⟨k, hk, -, m, hm, hname⟩ := hcause _ hd
    obtain rfl := Option.some.inj (hg.symm.trans hk)
    have hname : ("#" ++ n).toList = ("#" ++ m).toList := congrArg String.toList hname
    rw [String.toList_append, String.toList_append, List.append_right_inj] at hname
    exact hm (String.toList_injective hname ▸ hn)

/-- A grammar that includes itself, an entry that is missing, a grammar that is missing, a grammar that includes it in
turn, and an entry that gives nothing to keep. -/
def troubled : Grammar :=
  (Grammar.ofPatterns "a" [.including "$self", .including "#gone", .including "lost", .including "b",
    .including "#dead"]).addEntry "dead" (.named "x")

/-- A set of this grammar and the one that includes it in turn. -/
def alarming : LoadedGrammars :=
  ((({} : LoadedGrammars).insert troubled).2.insert (Grammar.ofPatterns "b" [.including "a"])).2

theorem alarming_wellFormed : alarming.WellFormed :=
  have h := Grammar.distinct_ofPatterns
  wellFormed_after [.insert troubled ((h "a" _).addEntry "dead" (.named "x")), .insert _ (h "b" [.including "a"])]

/-- The reserved include and the missing ones are reported, and not the grammar that is being walked through, nor the
entry that gives nothing to keep. -/
theorem diagnostics_warranted_alarming :
    let diagnostics := (PrunePass.run alarming.current ["k"] alarming.scopes).report.diagnostics
    diagnostics = [⟨.reservedInclude, "a", "$self"⟩, ⟨.missingEntry, "a", "#gone"⟩, ⟨.unknownGrammar, "a", "lost"⟩] ∧
      ∀ d ∈ diagnostics, ∃ g, alarming.get? d.grammar = some g ∧
        d.Warranted alarming.scopes ["k"] (Assoc.keys g.entries) := by
  intro diagnostics
  obtain ⟨-, hcause, -⟩ := diagnostics_warranted alarming ["k"] alarming.scopes alarming_wellFormed
  refine ⟨by decide +kernel, fun d hd => ?_⟩
  obtain ⟨g, hg, -, hwarranted⟩ := hcause d hd
  exact ⟨g, hg, hwarranted⟩

end LoadedGrammars

end ScopeActions
