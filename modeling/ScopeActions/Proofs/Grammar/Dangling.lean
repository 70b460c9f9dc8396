import Mathlib
import ScopeActions.Proofs.Grammar.Justified
import ScopeActions.Proofs.Grammar.Outcome
/-!
# Includes and the entries that they name

An entry is left when the patterns of its own grammar lead to it and it is live (`LoadedGrammars.prune_targets`). A rule
that is left for another reason may include an entry that is not: one that is dead, or one of another grammar, which
only counts as an include of that grammar (`LoadedGrammars.include_left_dangling`).
-/

namespace ScopeActions

/-- The entry that a rule includes and the scope of the grammar that should have it. A rule of the grammar `owner`
names an entry there, or one of another grammar. -/
def Rule.target? (owner : String) (r : Rule) : Option (String × String) :=
  r.head.inclusion.bind fun inclusion =>
    match inclusion.toList with
    | '$' :: _ => none
    | '#' :: name => some (owner, String.ofList name)
    | cs =>
      match cs.dropWhile (· != '#') with
      | _ :: name => some (String.ofList (cs.takeWhile (· != '#')), String.ofList name)
      | [] => none

/-- An entry that a rule includes is one of its own grammar. -/
theorem Rule.target?_of_entry {r : Rule} {n : String} (h : r.inclusion? = some (.entry n)) (owner : String) :
    r.target? owner = some (owner, n) := by
  obtain ⟨inclusion, hi, hp⟩ := Option.map_eq_some_iff.1 h
  unfold Inclusion.parse at hp
  split at hp
  · cases hp
  · next name hname =>
    cases hp
    simp [target?, hi, hname]
  · cases hp

namespace Grammar

variable {look : String → Option Grammar} {keep : ScopeSet} {g : Grammar} {r : Rule} {n : String}

/-- A pattern that is left with an include whose entry is not has a label to keep, or something live beneath it. -/
theorem Justified.of_dangling (h : g.Justified look keep) (hr : r ∈ g.patterns ∨ ∃ x ∈ g.rules false, r ∈ x.patternList)
    (hi : r.inclusion? = some (.entry n)) (hn : Assoc.get? g.entries n = none) :
    (∃ k ∈ r.labels, k ∈ keep) ∨ ∃ c ∈ r.children, g.Live look keep c := by
  have hlive : g.Live look keep r := by
    rcases hr with hr | ⟨x, hx, hr⟩
    · exact h.patterns r hr
    · exact h.nested x hx r hr
  cases hlive with
  | label hs hk => exact .inl ⟨_, hs, hk⟩
  | captured hc hlive => exact .inr ⟨_, Rule.mem_children.2 (.inl hc), hlive⟩
  | pattern hc hlive => exact .inr ⟨_, Rule.mem_children.2 (.inr hc), hlive⟩
  | entry hi' he _ =>
    rw [hi] at hi'
    cases hi'
    rw [hn] at he
    cases he
  | scope hi' _ => exact absurd (hi.symm.trans hi') nofun
  | grammar hi' _ _ _ => exact absurd (hi.symm.trans hi') nofun

/-- A live entry that the patterns lead to is left. -/
theorem contains_leaves {V : Verdicts} {e : Rule} (he : Assoc.get? g.entries n = some e)
    (hlive : e.LiveIn V.keep V.foreign g.entries) (hleads : ∃ x, g.Leads x ∧ x.inclusion? = some (.entry n)) :
    Assoc.contains (g.leaves V).entries n = true := by
  unfold leaves
  split
  · have hn : n ∈ g.liveNames V :=
      mem_liveNames.2 ⟨reach_iff.2 ⟨Assoc.contains_of_get? he, hleads⟩, e, he, hlive⟩
    exact Assoc.contains_of_get? (get?_entries_left_of_live hn he)
  · exact Assoc.contains_of_get? he

/-- A live entry that a rule left includes is left. -/
theorem contains_leaves_of_mem_rules {V : Verdicts} {e : Rule} (hk : g.Distinct) (hr : r ∈ (g.leaves V).rules false)
    (hi : r.inclusion? = some (.entry n)) (he : Assoc.get? g.entries n = some e)
    (hlive : e.LiveIn V.keep V.foreign g.entries) : Assoc.contains (g.leaves V).entries n = true := by
  by_cases hp : g.root.patterns.isSome
  · unfold leaves at hr
    rw [if_pos hp] at hr
    obtain ⟨x, hx, rfl⟩ := exists_leads_of_mem_rules_left hk hr
    exact contains_leaves he hlive ⟨x, hx, (Rule.inclusion?_restrict x).symm.trans hi⟩
  · unfold leaves
    rw [if_neg hp]
    exact Assoc.contains_of_get? he

end Grammar

namespace LoadedGrammars

/-- The grammar of a scope has an entry of this name. -/
def hasEntry (l : LoadedGrammars) (scope name : String) : Bool :=
  (l.get? scope).any fun g => Assoc.contains g.entries name

variable {l : LoadedGrammars} {keep : ScopeSet} {s n : String} {g : Grammar}

theorem hasEntry_of_get? (hg : l.get? s = some g) : l.hasEntry s n = Assoc.contains g.entries n := by
  rw [hasEntry, hg, Option.any_some]

/-- By the answers that the pass goes by in each grammar, an entry is left when it is live and a rule that is left in
its own grammar includes it, or else its own patterns lead to it. So a pattern whose entry is taken away is left for
another reason. -/
theorem prune_targets (l : LoadedGrammars) (keep : ScopeSet) (hl : l.Distinct) : ∃ V : String → Verdicts,
    (∀ s g, l.get? s = some g →
      (V s).keep = keep ∧ l.Answers keep (V s).foreign ∧ (l.prune keep).2.get? s = some (g.leaves (V s))) ∧
    ∀ s g g', l.get? s = some g → (l.prune keep).2.get? s = some g' →
      (∀ r ∈ g'.rules false, ∀ t n h e, r.target? s = some (t, n) → l.get? t = some h → Assoc.get? h.entries n = some e →
        e.LiveIn keep (V t).foreign h.entries →
        (r.inclusion? = some (.entry n) ∨ ∃ x, h.Leads x ∧ x.inclusion? = some (.entry n)) →
          (l.prune keep).2.hasEntry t n = true) ∧
      (g'.root.patterns.isSome → ∀ r, (r ∈ g'.patterns ∨ ∃ x ∈ g'.rules false, r ∈ x.patternList) →
        ∀ n, r.inclusion? = some (.entry n) → (l.prune keep).2.hasEntry s n = false →
          (∃ k ∈ r.labels, k ∈ keep) ∨ ∃ c ∈ r.children, g'.Live (l.prune keep).2.get? keep c) := by
  have hleaves : ∀ s, ∃ V : Verdicts, ∀ g, l.get? s = some g →
      V.keep = keep ∧ l.Answers keep V.foreign ∧ (l.prune keep).2.get? s = some (g.leaves V) := by
    intro s
    cases hg : l.get? s with
    | none => exact ⟨Verdicts.right l.current keep, nofun⟩
    | some g =>
      obtain ⟨V, hV⟩ := exists_leaves keep hl hg
      refine ⟨V, fun g' hg' => ?_⟩
      cases hg'
      exact hV
  choose V hV using hleaves
  refine ⟨V, hV, fun s g g' hg hg' => ⟨?_, ?_⟩⟩
  · intro r hr t n h e htarget hh he hlive hleads
    obtain ⟨hkeep, -, hleft⟩ := hV t h hh
    rw [hasEntry_of_get? hleft]
    rw [← hkeep] at hlive
    rcases hleads with hi | hleads
    · have hts := htarget.symm.trans (Rule.target?_of_entry hi s)
      rw [Option.some.injEq, Prod.mk.injEq] at hts
      obtain ⟨rfl, -⟩ := hts
      cases hg'.symm.trans hleft
      exact Grammar.contains_leaves_of_mem_rules (hl.current t h hh) hr hi he hlive
    · exact Grammar.contains_leaves he hlive hleads
  · intro hp r hr n hi hn
    rw [hasEntry_of_get? hg'] at hn
    exact (prune_justified l keep hl hg' hp).of_dangling hr hi (by simpa [Assoc.contains] using hn)

/-- Rules that include a live entry, and a live entry of a grammar that leads to it. -/
def firmPatterns : List Rule :=
  [.including "#live", .including "b#part"]

def firm : LoadedGrammars :=
  let a := Grammar.ofPatterns "a" firmPatterns
  let b := Grammar.ofPatterns "b" [.including "#part"]
  (((({} : LoadedGrammars).insert (a.addEntry "live" (.named "k"))).2).insert (b.addEntry "part" (.named "k"))).2

theorem firm_distinct : firm.Distinct := by
  have h := Grammar.distinct_ofPatterns
  exact (distinct_empty.insert ((h _ _).addEntry _ _)).insert ((h _ _).addEntry _ _)

def firmLeft : Grammar :=
  { scopeName := "a", root := .mk {} (some firmPatterns) (some [("live", .named "k")]) none none none }

theorem firm_targets : firm.Distinct ∧ (firm.prune ["k"]).2.get? "a" = some firmLeft ∧
    (firm.prune ["k"]).2.hasEntry "a" "live" = true ∧ (firm.prune ["k"]).2.hasEntry "b" "part" = true := by
  have hfirm : (firm.prune ["k"]).2.get? "a" = some firmLeft := by cbv
  obtain ⟨V, -, htargets⟩ := prune_targets firm ["k"] firm_distinct
  obtain ⟨hleft, -⟩ := htargets "a" _ firmLeft rfl hfirm
  have hmem : ∀ r ∈ firmPatterns, r ∈ firmLeft.rules false := fun r hr =>
    Grammar.mem_rules.2 (.inl ⟨r, hr, Rule.self_mem_visit r⟩)
  have hlive : ∀ foreign entries, (Rule.named "k").LiveIn ["k"] foreign entries := fun _ _ => .own rfl
  refine ⟨firm_distinct, hfirm, ?_, ?_⟩
  · exact hleft _ (hmem _ (.head _)) "a" "live" _ _ rfl rfl rfl (hlive _ _) (.inl rfl)
  · exact hleft _ (hmem _ (.tail _ (.head _))) "b" "part" _ _ rfl rfl rfl (hlive _ _) (.inr ⟨_, .root (.head _), rfl⟩)

/-- Rules to keep that include a dead entry, and an entry of a grammar that does not lead to it. -/
def loosePatterns : List Rule :=
  [.mk { name := some "k", inclusion := some "#dead" } none none none none none, .including "b#part"]

def loose : LoadedGrammars :=
  let a := Grammar.ofPatterns "a" loosePatterns
  let b := Grammar.ofPatterns "b" [.named "k"]
  (((({} : LoadedGrammars).insert (a.addEntry "dead" (.named "x"))).2).insert (b.addEntry "part" (.named "k"))).2

def looseLeft : Grammar :=
  { scopeName := "a", root := .mk {} (some loosePatterns) (some []) none none none }

theorem loose_distinct : loose.Distinct := by
  have h := Grammar.distinct_ofPatterns
  exact (distinct_empty.insert ((h _ _).addEntry _ _)).insert ((h _ _).addEntry _ _)

theorem prune_loose : (loose.prune ["k"]).2.get? "a" = some looseLeft := by
  cbv

/-- All rules are left, and no entry that they include is, though all were there. -/
theorem include_left_dangling : loose.Distinct ∧ (loose.prune ["k"]).2.get? "a" = some looseLeft ∧
    looseLeft.patterns = loosePatterns ∧ ∀ r ∈ looseLeft.patterns, ∃ t n, r.target? "a" = some (t, n) ∧
      loose.hasEntry t n = true ∧ (loose.prune ["k"]).2.hasEntry t n = false := by
  refine ⟨loose_distinct, prune_loose, rfl, fun r hr => ?_⟩
  change r ∈ loosePatterns at hr
  rcases List.mem_pair.1 hr with rfl | rfl
  · exact ⟨"a", "dead", rfl, by cbv, by cbv⟩
  · exact ⟨"b", "part", rfl, by cbv, by cbv⟩

end LoadedGrammars

end ScopeActions
