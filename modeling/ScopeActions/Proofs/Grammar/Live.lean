import ScopeActions.Proofs.Grammar.Leave
/-!
# Live rules in a set of grammars

`Grammar.Live` is the least relation that is closed under what makes a rule live, across all grammars of a
set. With verdicts that agree with it, the least relation inside one grammar (`Rule.LiveIn`) is the same, and
what a walk leaves is live in the grammar that it leaves (`Grammar.justified_left`).
-/

namespace ScopeActions.Grammar

/-- The rules of grammars that can give a scope to keep, where `look` are the grammars loaded. -/
inductive Live (look : String → Option Grammar) (keep : ScopeSet) : Grammar → Rule → Prop
  | label {g : Grammar} {r : Rule} {s : String} : s ∈ r.labels → s ∈ keep → Live look keep g r
  | captured {g : Grammar} {r c : Rule} : c ∈ r.captured → Live look keep g c → Live look keep g r
  | pattern {g : Grammar} {r c : Rule} : c ∈ r.patternList → Live look keep g c → Live look keep g r
  | entry {g : Grammar} {r e : Rule} {n : String} : r.inclusion? = some (.entry n) → Assoc.get? g.entries n = some e →
      Live look keep g e → Live look keep g r
  | scope {g : Grammar} {r : Rule} {t : String} : r.inclusion? = some (.grammar t) → t ∈ keep → Live look keep g r
  | grammar {g h : Grammar} {r x : Rule} {t : String} : r.inclusion? = some (.grammar t) → look t = some h →
      x ∈ h.patterns → Live look keep h x → Live look keep g r

/-- A grammar can give a scope to keep: its own scope, or one that comes from a root pattern. -/
def LiveScope (look : String → Option Grammar) (keep : ScopeSet) (t : String) : Prop :=
  t ∈ keep ∨ ∃ h, look t = some h ∧ ∃ x ∈ h.patterns, h.Live look keep x

variable {look look' : String → Option Grammar} {keep : ScopeSet} {foreign : String → Bool} {g : Grammar} {r : Rule}

/-- More grammars make more rules live. -/
theorem Live.mono (hl : ∀ t h, look t = some h → look' t = some h) (h : g.Live look keep r) :
    g.Live look' keep r := by
  induction h with
  | label hs hk => exact .label hs hk
  | captured hc _ ih => exact .captured hc ih
  | pattern hc _ ih => exact .pattern hc ih
  | entry hi he _ ih => exact .entry hi he ih
  | scope hi hk => exact .scope hi hk
  | grammar hi ht hx _ ih => exact .grammar hi (hl _ _ ht) hx ih

theorem LiveScope.mono {t : String} (hl : ∀ t h, look t = some h → look' t = some h) (h : LiveScope look keep t) :
    LiveScope look' keep t :=
  h.imp_right fun ⟨g, hg, x, hx, hlive⟩ => ⟨g, hl t g hg, x, hx, hlive.mono hl⟩

theorem Live.child {c : Rule} (hc : c ∈ r.children) (h : g.Live look keep c) : g.Live look keep r :=
  (Rule.mem_children.1 hc).elim (fun hc => .captured hc h) (fun hc => .pattern hc h)

/-- What is live by the verdicts is live, when the verdicts are right to keep what they keep. -/
theorem live_of_liveIn (hf : ∀ t, foreign t = true → LiveScope look keep t) (h : r.LiveIn keep foreign g.entries) :
    g.Live look keep r := by
  induction h with
  | own hl =>
    obtain ⟨s, hs, hk⟩ := List.any_eq_true.1 hl
    exact .label hs (by simpa using hk)
  | child hc _ ih => exact .child hc ih
  | entry hi he _ ih => exact .entry hi he ih
  | grammar hi ht =>
    rcases hf _ ht with hk | ⟨h, hl, x, hx, hlive⟩
    · exact .scope hi hk
    · exact .grammar hi hl hx hlive

/-- What is live is so by the verdicts, when these keep all that can give a scope to keep. -/
theorem liveIn_of_live (hf : ∀ t, LiveScope look keep t → foreign t = true) (h : g.Live look keep r) :
    r.LiveIn keep foreign g.entries := by
  induction h with
  | label hs hk => exact .own (List.any_eq_true.2 ⟨_, hs, by simpa using hk⟩)
  | captured hc _ ih => exact .child (Rule.mem_children.2 (.inl hc)) ih
  | pattern hc _ ih => exact .child (Rule.mem_children.2 (.inr hc)) ih
  | entry hi he _ ih => exact .entry hi he ih
  | scope hi hk => exact .grammar hi (hf _ (.inl hk))
  | grammar hi hl hx hlive _ => exact .grammar hi (hf _ (.inr ⟨_, hl, _, hx, hlive⟩))

/-! ## What a walk leaves is live -/

/-- All that is left of the grammar is live in it: the root patterns, the entries, and the patterns beneath both. -/
structure Justified (look : String → Option Grammar) (keep : ScopeSet) (g : Grammar) : Prop where
  patterns : ∀ r ∈ g.patterns, g.Live look keep r
  entries : ∀ b ∈ g.entries, g.Live look keep b.2
  nested : ∀ r ∈ g.rules false, ∀ c ∈ r.patternList, g.Live look keep c

theorem Justified.mono (hl : ∀ t h, look t = some h → look' t = some h) (h : g.Justified look keep) :
    g.Justified look' keep where
  patterns r hr := (h.patterns r hr).mono hl
  entries b hb := (h.entries b hb).mono hl
  nested r hr c hc := (h.nested r hr c hc).mono hl

theorem mem_rules {x : Rule} : x ∈ g.rules false ↔
    (∃ r ∈ g.patterns, x ∈ r.visit false) ∨ ∃ b ∈ g.entries, x ∈ b.2.visit false := by
  rw [rules, List.mem_append, Rule.visitList_eq, Rule.visitNamed_eq, List.mem_flatMap, List.mem_flatMap]
  refine or_congr_right ⟨?_, fun ⟨b, hb, hx⟩ => ⟨b.2, List.mem_map_of_mem hb, hx⟩⟩
  rintro ⟨_, he, hx⟩
  obtain ⟨b, hb, rfl⟩ := List.mem_map.1 he
  exact ⟨b, hb, hx⟩

/-- A rule to which the root patterns lead stands beneath one of them, or beneath an entry that they lead to. -/
theorem Leads.beneath {x : Rule} (h : g.Leads x) : (∃ r ∈ g.patterns, x ∈ r.visit false) ∨
    ∃ n e, Liveness.Reach g.patterns g.entries n ∧ Assoc.get? g.entries n = some e ∧ x ∈ e.visit false := by
  induction h with
  | root hr => exact .inl ⟨_, hr, Rule.self_mem_visit _⟩
  | child _ hc ih =>
    have hc := Rule.mem_visit_of_child hc (Rule.self_mem_visit _)
    rcases ih with ⟨r, hr, hx⟩ | ⟨n, e, hn, he, hx⟩
    · exact .inl ⟨r, hr, Rule.mem_visit_trans hx hc⟩
    · exact .inr ⟨n, e, hn, he, Rule.mem_visit_trans hx hc⟩
  | @entry r e n hr hi he ih =>
    exact .inr ⟨n, e, reach_iff.2 ⟨Assoc.contains_of_get? he, r, hr, hi⟩, he, Rule.self_mem_visit e⟩

/-- A rule passed stands in the grammar. -/
theorem Leads.mem_rules {r : Rule} (h : g.Leads r) : r ∈ g.rules false := by
  rcases h.beneath with ⟨x, hx, hr⟩ | ⟨n, e, -, he, hr⟩
  · exact Grammar.mem_rules.2 (.inl ⟨x, hx, hr⟩)
  · exact Grammar.mem_rules.2 (.inr ⟨_, Assoc.mem_of_get? he, hr⟩)

variable {V : Verdicts}

/-- A live rule passed is live in what is left of the grammar. -/
theorem Leads.live_left (hf : ∀ t, V.foreign t = true → LiveScope look V.keep t) (hr : g.Leads r)
    (h : r.LiveIn V.keep V.foreign g.entries) :
    (g.left V).Live look V.keep (r.restrict (V.sees (g.liveNames V))) := by
  induction h with
  | own hl =>
    obtain ⟨s, hs, hk⟩ := List.any_eq_true.1 hl
    exact .label ((Rule.labels_restrict _).symm ▸ hs) (by simpa using hk)
  | @child r c hc h ih =>
    have hc' := hr.child hc
    rcases Rule.mem_children.1 hc with hc | hc
    · refine .captured ?_ (ih hc')
      rw [Rule.captured_restrict]
      exact List.mem_map_of_mem hc
    · refine .pattern ?_ (ih hc')
      rw [Rule.patternList_restrict]
      exact List.mem_map_of_mem (List.mem_filter.2 ⟨hc, (sees_iff_liveIn hc').2 h⟩)
  | @entry r e n hi he h ih =>
    -- a live entry that a rule passed includes is left, under its name
    have hleft := get?_entries_left_of_live (hr.entry_live hi he h) he
    exact .entry (n := n) ((Rule.inclusion?_restrict r).trans hi) hleft (ih (hr.entry hi he))
  | @grammar r t hi ht =>
    have hi' := (Rule.inclusion?_restrict (p := V.sees (g.liveNames V)) r).trans hi
    rcases hf t ht with hk | ⟨h, hl, x, hx, hlive⟩
    · exact .scope hi' hk
    · exact .grammar hi' hl hx hlive

theorem mem_patterns_left {x : Rule} (hx : x ∈ (g.left V).patterns) :
    ∃ r, g.Leads r ∧ r.LiveIn V.keep V.foreign g.entries ∧ x = r.restrict (V.sees (g.liveNames V)) := by
  rw [left, patterns_restrict] at hx
  obtain ⟨r, hr, rfl⟩ := List.mem_map.1 hx
  obtain ⟨hr, hs⟩ := List.mem_filter.1 hr
  exact ⟨r, .root hr, (sees_iff_liveIn (.root hr)).1 hs, rfl⟩

theorem mem_entries_left (hk : (Assoc.keys g.entries).Nodup) {b : String × Rule} (hb : b ∈ (g.left V).entries) :
    ∃ r, g.Leads r ∧ r.LiveIn V.keep V.foreign g.entries ∧ b.2 = r.restrict (V.sees (g.liveNames V)) := by
  rw [left, entries_restrict] at hb
  obtain ⟨d, hd, rfl⟩ := List.mem_map.1 hb
  obtain ⟨hd, hl⟩ := List.mem_filter.1 hd
  obtain ⟨hr, hlive⟩ := leads_of_mem_liveNames (List.contains_iff_mem.1 hl) (Assoc.get?_of_mem hk hd)
  exact ⟨d.2, hr, hlive, rfl⟩

/-- A rule in what is left is what was left of a rule passed. -/
theorem exists_leads_of_mem_rules_left (hk : (Assoc.keys g.entries).Nodup) {x : Rule} (hx : x ∈ (g.left V).rules false) :
    ∃ r, g.Leads r ∧ x = r.restrict (V.sees (g.liveNames V)) := by
  obtain ⟨r, hr, hxr⟩ : ∃ r, g.Leads r ∧ x ∈ (r.restrict (V.sees (g.liveNames V))).visit false := by
    rcases mem_rules.1 hx with ⟨y, hy, hx⟩ | ⟨b, hb, hx⟩
    · obtain ⟨r, hr, -, rfl⟩ := mem_patterns_left hy
      exact ⟨r, hr, hx⟩
    · obtain ⟨r, hr, -, he⟩ := mem_entries_left hk hb
      exact ⟨r, hr, he ▸ hx⟩
  obtain ⟨y, hy, rfl⟩ := Rule.exists_of_mem_visit_restrict hxr
  exact ⟨y, hr.of_mem_visit hy, rfl⟩

/-- All that a walk leaves is live. -/
theorem justified_left (hf : ∀ t, V.foreign t = true → LiveScope look V.keep t) (hk : (Assoc.keys g.entries).Nodup) :
    (g.left V).Justified look V.keep := by
  constructor
  · intro x hx
    obtain ⟨r, hr, hl, rfl⟩ := mem_patterns_left hx
    exact hr.live_left hf hl
  · intro b hb
    obtain ⟨r, hr, hl, he⟩ := mem_entries_left hk hb
    exact he ▸ hr.live_left hf hl
  · intro x hx c hc
    obtain ⟨y, hy, rfl⟩ := exists_leads_of_mem_rules_left hk hx
    rw [Rule.patternList_restrict] at hc
    obtain ⟨d, hd, rfl⟩ := List.mem_map.1 hc
    obtain ⟨hd, hs⟩ := List.mem_filter.1 hd
    have hlead := hy.child (Rule.mem_children.2 (.inr hd))
    exact hlead.live_left hf ((sees_iff_liveIn hlead).1 hs)

/-- The result of a walk is justified, and patterns are left only where one of them is live. -/
theorem justified_inquiry (hf : ∀ t, V.foreign t = true → LiveScope look V.keep t)
    (hk : (Assoc.keys g.entries).Nodup) :
    let pruned := (g.inquiry V.keep V.loaded).value V.on
    (pruned.grammar.root.patterns.isSome → pruned.grammar.Justified look V.keep) ∧
      (pruned.patternsLeft = true → ∃ x ∈ pruned.grammar.patterns, pruned.grammar.Live look V.keep x) := by
  intro pruned
  obtain ⟨hgrammar, hleft⟩ := inquiry_value (V := V) hk
  have hj := justified_left hf hk
  constructor
  · intro h
    change pruned.grammar = g.leaves V at hgrammar
    unfold leaves at hgrammar
    split at hgrammar
    · rw [hgrammar]
      exact hj
    · next hg =>
      rw [hgrammar] at h
      exact absurd h hg
  · intro h
    change pruned.patternsLeft = _ at hleft
    change pruned.grammar = _ at hgrammar
    rw [hleft] at h
    obtain ⟨r, hr, hs⟩ := List.any_eq_true.1 h
    rw [hgrammar, leaves_of_mem_patterns hr]
    have hx : r.restrict (V.sees (g.liveNames V)) ∈ (g.left V).patterns := by
      rw [left, patterns_restrict]
      exact List.mem_map_of_mem (List.mem_filter.2 ⟨hr, hs⟩)
    exact ⟨_, hx, hj.patterns _ hx⟩

end ScopeActions.Grammar
