import Mathlib.Data.List.Forall2
import ScopeActions.Proofs.Grammar.Tally
/-!
# What pruning leaves alone

Of a rule that is left only lists of patterns have lost elements, in it and beneath it; all else is as it was, and in
its order (`Rule.LeftOf`). Of a grammar the repository may have lost entries, too (`LoadedGrammars.pruned_leftOf`).
-/

namespace ScopeActions

/-- The two bindings have one key, and their values are related. -/
inductive Assoc.SameKey {α β : Type} (R : α → β → Prop) : String × α → String × β → Prop
  | intro (k : String) {a : α} {b : β} : R a b → SameKey R (k, a) (k, b)

/-- The first rule is what is left of the second: some of its patterns, in their order, and all of its captures, each of
them left in the same way. -/
inductive Rule.LeftOf : Rule → Rule → Prop
  | intro {r' r : Rule} (head : r'.head = r.head) (repository : r'.repository = r.repository)
      (patterns : Option.Rel (List.SublistForall₂ LeftOf) r'.patterns r.patterns)
      (captures : Option.Rel (List.Forall₂ (Assoc.SameKey LeftOf)) r'.captures r.captures)
      (beginCaptures : Option.Rel (List.Forall₂ (Assoc.SameKey LeftOf)) r'.beginCaptures r.beginCaptures)
      (endCaptures : Option.Rel (List.Forall₂ (Assoc.SameKey LeftOf)) r'.endCaptures r.endCaptures) : LeftOf r' r

/-- The first grammar is what is left of the second: some of its root patterns and some of its entries, in their order,
each of them left as rules are. One without root patterns is left whole. -/
structure Grammar.LeftOf (g' g : Grammar) : Prop where
  scopeName : g'.scopeName = g.scopeName
  fileTypes : g'.fileTypes = g.fileTypes
  firstLineMatch : g'.firstLineMatch = g.firstLineMatch
  head : g'.root.head = g.root.head
  captures : g'.root.captures = g.root.captures
  beginCaptures : g'.root.beginCaptures = g.root.beginCaptures
  endCaptures : g'.root.endCaptures = g.root.endCaptures
  whole : g.root.patterns = none → g' = g
  patterns : Option.Rel (List.SublistForall₂ Rule.LeftOf) g'.root.patterns g.root.patterns
  repository : Option.Rel (List.SublistForall₂ (Assoc.SameKey Rule.LeftOf)) g'.root.repository g.root.repository

namespace Rule
variable {p : Rule → Bool}

theorem restrictList_leftOf {rs : List Rule} (h : ∀ r ∈ rs, (r.restrict p).LeftOf r) :
    List.SublistForall₂ LeftOf (restrictList p rs) rs := by
  refine List.sublistForall₂_iff.2 ⟨rs.filter p, ?_, List.filter_sublist⟩
  rw [restrictList_eq, List.forall₂_map_left_iff, List.forall₂_same]
  exact fun r hr => h r (List.mem_filter.1 hr).1

theorem restrictNamed_leftOf {es : List (String × Rule)} (h : ∀ e ∈ es, (e.2.restrict p).LeftOf e.2) :
    List.Forall₂ (Assoc.SameKey LeftOf) (restrictNamed p es) es := by
  rw [restrictNamed_eq, List.forall₂_map_left_iff, List.forall₂_same]
  exact fun e he => .intro e.1 (h e he)

/-- What a restriction leaves of a rule is left of it. -/
theorem restrict_leftOf (r : Rule) : (r.restrict p).LeftOf r := by
  induction r with
  | node r ih =>
    rcases r with ⟨head, patterns, repository, captures, begins, ends⟩
    have named : ∀ o ∈ [captures, begins, ends],
        Option.Rel (List.Forall₂ (Assoc.SameKey LeftOf)) (o.map (restrictNamed p)) o := by
      intro o ho
      cases o with
      | none => exact .none
      | some es =>
        refine .some (restrictNamed_leftOf fun e he => ih e.2 ?_)
        exact mem_children.2 (.inl (mem_captured_mk ho (List.mem_map_of_mem he)))
    have hpatterns : Option.Rel (List.SublistForall₂ LeftOf) (patterns.map (restrictList p)) patterns := by
      cases patterns with
      | none => exact .none
      | some rs => exact .some (restrictList_leftOf fun c hc => ih c (mem_children.2 (.inr hc)))
    rw [restrict_mk]
    exact .intro rfl rfl hpatterns (named captures (by simp)) (named begins (by simp)) (named ends (by simp))

end Rule

/-- What a restriction leaves of a grammar is left of it, if it leaves one without root patterns alone. -/
theorem Grammar.restrict_leftOf {p : Rule → Bool} {left : String → Bool} {g : Grammar}
    (hwhole : g.root.patterns = none → g.restrict p left = g) : (g.restrict p left).LeftOf g := by
  rcases g with ⟨scope, types, first, head, patterns, entries, captures, begins, ends⟩
  have hpatterns : Option.Rel (List.SublistForall₂ Rule.LeftOf) (patterns.map (Rule.restrictList p)) patterns := by
    cases patterns with
    | none => exact .none
    | some rs => exact .some (Rule.restrictList_leftOf fun r _ => r.restrict_leftOf)
  have hentries : Option.Rel (List.SublistForall₂ (Assoc.SameKey Rule.LeftOf))
      (entries.map fun es => Rule.restrictNamed p (es.filter fun e => left e.1)) entries := by
    cases entries with
    | none => exact .none
    | some es =>
      refine .some (List.sublistForall₂_iff.2 ⟨es.filter fun e => left e.1, ?_, List.filter_sublist⟩)
      exact Rule.restrictNamed_leftOf fun e _ => e.2.restrict_leftOf
  exact ⟨rfl, rfl, rfl, rfl, rfl, rfl, rfl, hwhole, hpatterns, hentries⟩

namespace LoadedGrammars

/-- A pass only deletes: the grammars stay in their order, and of each it leaves some of its root patterns and of its
entries, and of the rules that are left some of their patterns. All else is as it was. -/
theorem pruned_leftOf (l : LoadedGrammars) (keep : ScopeSet) (scopes : List String) (hl : l.WellFormed) :
    (l.pruned keep scopes).scopes = l.scopes ∧ ∀ s g, l.get? s = some g →
      ∃ g', (l.pruned keep scopes).get? s = some g' ∧ g'.LeftOf g := by
  obtain ⟨sieve, h⟩ := hl.exists_sifting keep scopes
  refine ⟨h.keys, fun s g hg => ⟨_, get?_pruned h hg, Grammar.restrict_leftOf fun hnone => ?_⟩⟩
  exact Option.some.inj ((get?_pruned h hg).symm.trans (h.whole s g hg hnone))

/-- A grammar with two root patterns and an entry that none of them includes. A scope stands in a pattern nested in the
first of them, which also has a capture. -/
def mixedGrammar : Grammar :=
  (Grammar.ofPatterns "a" [.mk {} (some [.named "x", .named "k"]) none (some [("1", .named "y")]) none none,
    .named "z"]).addEntry "part" (.named "k")

/-- A set of this one grammar. -/
def mixed : LoadedGrammars := (({} : LoadedGrammars).insert mixedGrammar).2

theorem mixed_wellFormed : mixed.WellFormed :=
  wellFormed_after [.insert mixedGrammar ((Grammar.distinct_ofPatterns "a" _).addEntry "part" (.named "k"))]

/-- One of two root patterns is left, and no entry. -/
theorem pruned_leftOf_mixed : mixed.WellFormed ∧ ∃ g', (mixed.pruned ["k"] mixed.scopes).get? "a" = some g' ∧
    g'.LeftOf mixedGrammar ∧ g'.patterns.length = 1 ∧ g'.entries = [] := by
  obtain ⟨-, hleft⟩ := pruned_leftOf mixed ["k"] mixed.scopes mixed_wellFormed
  obtain ⟨g', hg', hleft⟩ := hleft "a" mixedGrammar rfl
  have hcounts : ((mixed.pruned ["k"] mixed.scopes).get? "a").map (fun g => (g.patterns.length, g.entries.length)) =
      some (1, 0) := by decide +kernel
  rw [hg', Option.map_some, Option.some_inj, Prod.mk.injEq, List.length_eq_zero_iff] at hcounts
  exact ⟨mixed_wellFormed, g', hg', hleft, hcounts⟩

end LoadedGrammars

end ScopeActions
