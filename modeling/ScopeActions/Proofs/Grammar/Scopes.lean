import ScopeActions.Proofs.Grammar.Tally
import ScopeActions.Proofs.Sorted
import ScopeActions.Proofs.Text.Bytes
/-!
# The scopes of a set of grammars

The scopes that a set of grammars can give to a text are those of its grammars and the labels of the rules that they hold,
in the order of their bytes. They do not depend on the order in which the grammars came, and pruning adds none
(`LoadedGrammars.allScopes_labels`).
-/

namespace ScopeActions

namespace Rule

/-! ## What a rule contains -/

/-- The rules in the repository. -/
def repositoryRules (r : Rule) : List Rule := (r.repository.getD []).map (·.2)

/-- The rules one step below, those in the repository included. -/
def contents (r : Rule) : List Rule := r.patternList ++ r.captured ++ r.repositoryRules

theorem mem_contents {r c : Rule} : c ∈ r.contents ↔ c ∈ r.children ∨ c ∈ r.repositoryRules := by
  rw [contents, children, List.mem_append, List.mem_append, List.mem_append, or_comm (a := c ∈ r.captured)]

theorem sizeOf_lt_of_mem_contents {r c : Rule} (h : c ∈ r.contents) : sizeOf c < sizeOf r := by
  rcases mem_contents.1 h with h | h
  · exact sizeOf_lt_of_mem_children h
  · obtain ⟨⟨key, c⟩, he, rfl⟩ := List.mem_map.1 h
    rcases r with ⟨head, patterns, _ | es, captures, begins, ends⟩
    · cases he
    · have he : (key, c) ∈ es := he
      have hes := List.sizeOf_lt_of_mem he
      simp only [Rule.mk.sizeOf_spec, Option.some.sizeOf_spec, Prod.mk.sizeOf_spec] at hes ⊢
      omega

/-- What holds of a rule when it holds of the rules that it contains holds of every rule. -/
theorem induct_contents {P : Rule → Prop} (node : ∀ r, (∀ c ∈ r.contents, P c) → P r) (r : Rule) : P r :=
  node r fun c _ => induct_contents node c
termination_by sizeOf r
decreasing_by exact sizeOf_lt_of_mem_contents ‹_›

theorem visit_true_eq (r : Rule) : r.visit true = r :: r.contents.flatMap (visit true) := by
  cases r with
  | mk head patterns repository captures begins ends =>
    rw [visit.eq_def]
    cases patterns <;> cases repository <;> cases captures <;> cases begins <;> cases ends <;>
      simp [visitList_eq, visitNamed_eq, contents, captured, patternList, repositoryRules, Rule.captures, beginCaptures,
        endCaptures, Rule.patterns, Rule.repository]

theorem mem_visit_true {r x : Rule} : x ∈ r.visit true ↔ x = r ∨ ∃ c ∈ r.contents, x ∈ c.visit true := by
  rw [visit_true_eq, List.mem_cons, List.mem_flatMap]

/-- A visit that meets a rule meets what the rule contains. -/
theorem mem_visit_of_mem_contents {r x c : Rule} (hx : x ∈ r.visit true) (hc : c ∈ x.contents) : c ∈ r.visit true := by
  induction r using induct_contents with
  | node r ih =>
    refine mem_visit_true.2 (.inr ?_)
    rcases mem_visit_true.1 hx with rfl | ⟨d, hd, hx⟩
    · exact ⟨c, hc, mem_visit_true.2 (.inl rfl)⟩
    · exact ⟨d, hd, ih d hd hx⟩

/-- A rule that is restricted contains what the rule contains, restricted or as it was. -/
theorem exists_of_mem_contents_restrict {p : Rule → Bool} {r c : Rule} (h : c ∈ (r.restrict p).contents) :
    ∃ d ∈ r.contents, c = d ∨ c = d.restrict p := by
  rcases mem_contents.1 h with h | h
  · obtain ⟨d, hd, rfl⟩ := exists_of_mem_children_restrict h
    exact ⟨d, mem_contents.2 (.inl hd), .inr rfl⟩
  · cases r
    exact ⟨c, mem_contents.2 (.inr h), .inl rfl⟩

end Rule

namespace Grammar

/-! ## What a grammar holds -/

/-- The rules that the grammar holds: those of its root patterns and those of its entries, and what these contain at any
depth. The root is none of them. -/
inductive Holds (g : Grammar) : Rule → Prop
  | pattern {r : Rule} : r ∈ g.patterns → Holds g r
  | entry {name : String} {r : Rule} : (name, r) ∈ g.entries → Holds g r
  | inner {r c : Rule} : Holds g r → c ∈ r.contents → Holds g c

/-- The scope is that of the grammar, or a label of a rule that it holds. -/
def Gives (g : Grammar) (s : String) : Prop :=
  s = g.scopeName ∨ ∃ r, g.Holds r ∧ (r.head.name = some s ∨ r.head.contentName = some s)

/-- The grammar with other labels on its root. -/
def withHead (g : Grammar) (head : RuleHead) : Grammar :=
  match g.root with
  | .mk _ patterns repository captures begins ends =>
    { g with root := .mk head patterns repository captures begins ends }

variable {g : Grammar} {r x : Rule} {s : String}

theorem Holds.visit (hr : g.Holds r) (hx : x ∈ r.visit true) : g.Holds x := by
  induction r using Rule.induct_contents with
  | node r ih =>
    rcases Rule.mem_visit_true.1 hx with rfl | ⟨c, hc, hx⟩
    · exact hr
    · exact ih c hc (hr.inner hc) hx

/-- The rules of a grammar are listed, whatever they are nested in. -/
theorem mem_rules_true : x ∈ g.rules true ↔ g.Holds x := by
  rw [rules, Rule.visitList_eq, Rule.visitNamed_eq, List.mem_append, List.mem_flatMap, List.mem_flatMap]
  constructor
  · rintro (⟨r, hr, hx⟩ | ⟨r, hr, hx⟩)
    · exact (Holds.pattern hr).visit hx
    · obtain ⟨⟨name, r⟩, he, rfl⟩ := List.mem_map.1 hr
      exact (Holds.entry he).visit hx
  · intro hx
    induction hx with
    | @pattern r hr => exact .inl ⟨r, hr, Rule.mem_visit_true.2 (.inl rfl)⟩
    | @entry name r he => exact .inr ⟨r, List.mem_map_of_mem he, Rule.mem_visit_true.2 (.inl rfl)⟩
    | inner _ hc ih =>
      refine ih.imp ?_ ?_
      all_goals
        rintro ⟨r, hr, hx⟩
        exact ⟨r, hr, Rule.mem_visit_of_mem_contents hx hc⟩

theorem mem_scopes : s ∈ g.scopes ↔ g.Gives s := by
  have hlabels : ∀ r : Rule, s ∈ r.labels ↔ r.head.name = some s ∨ r.head.contentName = some s := by
    intro r
    rw [Rule.labels, List.mem_append, Option.mem_toList, Option.mem_toList]
  simp only [scopes, List.mem_cons, List.mem_flatMap, mem_rules_true, hlabels, Gives]

theorem scopes_withHead (g : Grammar) (head : RuleHead) : (g.withHead head).scopes = g.scopes := by
  rcases g with ⟨_, _, _, _, _, _, _, _, _⟩
  rfl

/-- What is left of a grammar holds what the grammar held, restricted or as it was. -/
theorem Holds.of_restrict {p : Rule → Bool} {left : String → Bool} (hx : (g.restrict p left).Holds x) :
    ∃ y, g.Holds y ∧ (x = y ∨ x = y.restrict p) := by
  induction hx with
  | pattern hr =>
    rw [patterns_restrict] at hr
    obtain ⟨y, hy, rfl⟩ := List.mem_map.1 hr
    exact ⟨y, .pattern (List.mem_filter.1 hy).1, .inr rfl⟩
  | entry he =>
    rw [entries_restrict] at he
    obtain ⟨⟨name, y⟩, hy, heq⟩ := List.mem_map.1 he
    cases heq
    exact ⟨y, .entry (List.mem_filter.1 hy).1, .inr rfl⟩
  | inner _ hc ih =>
    -- a rule in a repository beneath the root is as it was, and so is all that it contains
    obtain ⟨y, hy, rfl | rfl⟩ := ih
    · exact ⟨_, hy.inner hc, .inl rfl⟩
    · obtain ⟨d, hd, hcd⟩ := Rule.exists_of_mem_contents_restrict hc
      exact ⟨d, hy.inner hd, hcd⟩

/-- Restricting adds no scope. -/
theorem Gives.of_restrict {p : Rule → Bool} {left : String → Bool} (h : (g.restrict p left).Gives s) : g.Gives s := by
  rcases h with rfl | ⟨x, hx, hs⟩
  · exact .inl (g.remains_restrict.scopeName)
  · obtain ⟨y, hy, rfl | rfl⟩ := hx.of_restrict
    · exact .inr ⟨_, hy, hs⟩
    · exact .inr ⟨y, hy, by rwa [Rule.head_restrict] at hs⟩

end Grammar

namespace LoadedGrammars

variable {l l' : LoadedGrammars} {s : String} {gs gs' : List Grammar}

/-! ## What a set of grammars gives -/

theorem mem_allScopes (hl : l.scopes.Nodup) : s ∈ l.allScopes ↔ ∃ t g, l.get? t = some g ∧ g.Gives s := by
  simp only [allScopes, SortedSet.mem_ofList, List.mem_flatMap, Assoc.values, List.mem_map, Grammar.mem_scopes]
  constructor
  · rintro ⟨g, ⟨b, hb, rfl⟩, hs⟩
    exact ⟨b.1, b.2, Assoc.get?_of_mem hl hb, hs⟩
  · rintro ⟨t, g, hg, hs⟩
    exact ⟨g, ⟨(t, g), Assoc.mem_of_get? hg, rfl⟩, hs⟩

/-- What grammars are found counts, and not their order. -/
theorem allScopes_congr (hl : l.scopes.Nodup) (hl' : l'.scopes.Nodup) (h : ∀ t, l.get? t = l'.get? t) :
    l.allScopes = l'.allScopes := by
  have hmem : ∀ s, s ∈ l.allScopes ↔ s ∈ l'.allScopes := by
    intro s
    rw [mem_allScopes hl, mem_allScopes hl']
    simp only [h]
  exact SortedSet.ofList_congr fun s => SortedSet.mem_ofList.symm.trans ((hmem s).trans SortedSet.mem_ofList)

/-- The set with other labels on the roots of its grammars. -/
def withHeads (l : LoadedGrammars) (heads : String → RuleHead) : LoadedGrammars :=
  { l with current := l.current.map fun b => (b.1, b.2.withHead (heads b.1)) }

theorem allScopes_withHeads (l : LoadedGrammars) (heads : String → RuleHead) : (l.withHeads heads).allScopes = l.allScopes := by
  have hscopes : (Assoc.values (l.withHeads heads).current).flatMap Grammar.scopes =
      (Assoc.values l.current).flatMap Grammar.scopes := by
    simp only [withHeads, Assoc.values, List.map_map, List.flatMap_map, Function.comp_apply, Grammar.scopes_withHead]
  rw [allScopes, hscopes, allScopes]

/-- A pass leaves no scope that was not there before. -/
theorem allScopes_pruned (hl : l.WellFormed) (keep : ScopeSet) (scopes : List String) :
    (l.pruned keep scopes).allScopes ⊆ l.allScopes := by
  intro s hs
  obtain ⟨sieve, hsieve⟩ := hl.exists_sifting keep scopes
  have hscopes : (l.pruned keep scopes).scopes = l.scopes := PrunePass.keys_run l.current keep scopes
  have hkeys : (l.pruned keep scopes).scopes.Nodup := hscopes ▸ hl.nodup
  obtain ⟨t, g', hg', hs⟩ := (mem_allScopes hkeys).1 hs
  cases hg : l.get? t with
  | none => exact absurd (hg'.symm.trans (get?_pruned_eq_none hg)) (Option.some_ne_none g')
  | some g =>
    cases hg'.symm.trans (get?_pruned hsieve hg)
    exact (mem_allScopes hl.nodup).2 ⟨t, g, hg, hs.of_restrict⟩

/-! ## Loading in another order -/

/-- A step that can bring in a grammar puts it in its place and does nothing else to the grammars. -/
theorem current_step {step : GrammarStep} (hs : step.inserts = true) :
    (l.step step).current = (l.brings step).toList.foldl (fun m g => Assoc.put m g.scopeName g) l.current := by
  cases step with
  | insert g hg => rfl
  | loadFile read fs path =>
    rcases l.loadFile_cases read fs path with ⟨e, h⟩ | h | ⟨g, hr, h⟩
    · simp [LoadedGrammars.step, brings, h]
    · simp [LoadedGrammars.step, brings, h]
    · simp [LoadedGrammars.step, brings, h, hr, Except.toOption, insert]
  | _ => cases hs

theorem current_steps {loads : List GrammarStep} (hs : ∀ step ∈ loads, step.inserts = true) :
    (loads.foldl step l).current = (l.inserted loads).foldl (fun m g => Assoc.put m g.scopeName g) l.current := by
  induction loads generalizing l with
  | nil => rfl
  | cons load loads ih =>
    obtain ⟨hload, hs⟩ := List.forall_mem_cons.1 hs
    rw [List.foldl_cons, ih hs, current_step hload, inserted, List.foldl_append]

/-- The grammar that came last is found. -/
theorem get?_foldl_put (gs : List Grammar) (m : Assoc Grammar) (s : String) :
    Assoc.get? (gs.foldl (fun m g => Assoc.put m g.scopeName g) m) s =
      (gs.filter (·.scopeName = s)).getLast?.or (Assoc.get? m s) := by
  induction gs using List.reverseRecOn with
  | nil => rfl
  | append_singleton gs g ih =>
    rw [List.foldl_append, List.foldl_cons, List.foldl_nil, Assoc.get?_put, ih, List.filter_append]
    by_cases h : g.scopeName = s <;> simp [h]

/-- Of grammars with distinct scopes, the last for a scope is the only one. -/
theorem getLast?_filter_eq_some (hn : (gs.map (·.scopeName)).Nodup) {g : Grammar} :
    (gs.filter (·.scopeName = s)).getLast? = some g ↔ g ∈ gs ∧ g.scopeName = s := by
  have hmem : ∀ k, k ∈ gs.filter (·.scopeName = s) ↔ k ∈ gs ∧ k.scopeName = s := fun k => by simp
  rw [← hmem g]
  refine ⟨List.mem_of_getLast?, fun hg => ?_⟩
  obtain ⟨k, hk⟩ := Option.ne_none_iff_exists'.1 (mt List.getLast?_eq_none_iff.1 (List.ne_nil_of_mem hg))
  obtain ⟨hgs, hgname⟩ := (hmem g).1 hg
  obtain ⟨hks, hkname⟩ := (hmem k).1 (List.mem_of_getLast? hk)
  rwa [← List.inj_on_of_nodup_map hn hks hgs (hkname.trans hgname.symm)]

theorem getLast?_filter_perm (hp : gs.Perm gs') (hn : (gs.map (·.scopeName)).Nodup) (s : String) :
    (gs.filter (·.scopeName = s)).getLast? = (gs'.filter (·.scopeName = s)).getLast? := by
  have hn' : (gs'.map (·.scopeName)).Nodup := (hp.map _).nodup_iff.1 hn
  refine Option.ext fun g => ?_
  rw [getLast?_filter_eq_some hn, getLast?_filter_eq_some hn', hp.mem_iff]

/-- After any history, the scopes that the grammars can give increase strictly in the order of their bytes. They are the
scopes of the grammars and the labels of the rules that these hold in their root patterns and repositories, nested in
whatever; the labels of the roots are not looked at. When the same grammars, with distinct scopes, are then loaded in one
order or in another, the scopes are the same; and a pruning pass leaves none that was not there before. -/
theorem allScopes_labels (steps : List GrammarStep) :
    let l := after steps
    l.allScopes.Pairwise (fun s t => Text.bytes s < Text.bytes t) ∧
    (∀ s, s ∈ l.allScopes ↔ ∃ t g, l.get? t = some g ∧ g.Gives s) ∧
    (∀ heads, (l.withHeads heads).allScopes = l.allScopes) ∧
    (∀ loads loads' : List GrammarStep, (∀ s ∈ loads ++ loads', s.inserts = true) →
      (l.inserted loads).Perm (l.inserted loads') → ((l.inserted loads).map (·.scopeName)).Nodup →
      (after (steps ++ loads)).allScopes = (after (steps ++ loads')).allScopes) ∧
    (∀ keep, (l.prune keep).2.allScopes ⊆ l.allScopes) ∧
    ∀ scope keep, (l.pruneFrom scope keep).2.allScopes ⊆ l.allScopes := by
  intro l
  have hl : l.WellFormed := wellFormed_after steps
  refine ⟨?_, fun s => mem_allScopes hl.nodup, l.allScopes_withHeads, ?_, fun keep => allScopes_pruned hl keep l.scopes, ?_⟩
  · exact (SortedSet.pairwise_ofList _).imp Text.bytes_lt
  · intro loads loads' hloads hperm hdistinct
    obtain ⟨hs, hs'⟩ := List.forall_mem_append.1 hloads
    refine allScopes_congr (wellFormed_after _).nodup (wellFormed_after _).nodup fun t => ?_
    have hcurrent : ∀ later : List GrammarStep, (∀ s ∈ later, s.inserts = true) → (after (steps ++ later)).get? t =
        ((l.inserted later).filter (·.scopeName = t)).getLast?.or (l.get? t) := by
      intro later hlater
      rw [after, List.foldl_append, get?, current_steps hlater, get?_foldl_put]
      rfl
    rw [hcurrent loads hs, hcurrent loads' hs', getLast?_filter_perm hperm hdistinct]
  · intro scope keep
    unfold pruneFrom
    split
    · exact allScopes_pruned hl keep [scope]
    · exact List.Subset.refl _

/-- A grammar with labels in a capture of a pattern, in a repository within an entry, and on its root. -/
def labelled : Grammar where
  scopeName := "b"
  root :=
    .mk { name := some "Display" } (some [.mk {} none none (some [("1", .named "x")]) none none])
      (some [("e", .mk { contentName := some "y" } none (some [("f", .named "z")]) none none none)]) none none none

theorem distinct_labelled : labelled.Distinct := List.nodup_singleton "e"

/-- A grammar with one label. -/
def plain : Grammar := Grammar.ofPatterns "a" [.named "k"]

theorem distinct_plain : plain.Distinct := Grammar.distinct_ofPatterns "a" _

/-- Loaded in either order, the two grammars give the same scopes. The name of a root is none of them. -/
theorem allScopes_labels_labelled :
    let loads : List GrammarStep := [.insert labelled distinct_labelled, .insert plain distinct_plain]
    let loads' : List GrammarStep := [.insert plain distinct_plain, .insert labelled distinct_labelled]
    (after loads).allScopes = ["a", "b", "k", "x", "y", "z"] ∧ (after loads').allScopes = (after loads).allScopes ∧
      ((after loads).prune ["k"]).2.allScopes ⊆ ["a", "b", "k", "x", "y", "z"] := by
  intro loads loads'
  have hscopes : (after loads).allScopes = ["a", "b", "k", "x", "y", "z"] := by decide +kernel
  have hinserts : ∀ s ∈ loads ++ loads', s.inserts = true := by simp [loads, loads', GrammarStep.inserts]
  have hperm : (inserted {} loads).Perm (inserted {} loads') := List.Perm.swap _ _ _
  have hdistinct : ((inserted {} loads).map (·.scopeName)).Nodup := by decide +kernel
  obtain ⟨-, -, -, horder, -, -⟩ := allScopes_labels []
  obtain ⟨-, -, -, -, hprune, -⟩ := allScopes_labels loads
  exact ⟨hscopes, (horder loads loads' hinserts hperm hdistinct).symm, hscopes ▸ hprune ["k"]⟩

end LoadedGrammars

end ScopeActions
