import ScopeActions.Proofs.Grammar.Drain
/-!
# What a walk through a grammar leaves

With the verdicts on other grammars given, a walk leaves of a grammar what is live in it
(`Grammar.inquiry_spec`): the patterns that are seen to be live and the live ones of the entries that the root
patterns lead to.
-/

namespace ScopeActions

namespace Grammar

/-- The rules that `p` rejects are taken out of all lists of patterns, and the entries that `left` rejects out of
the repository. -/
def restrict (p : Rule → Bool) (left : String → Bool) (g : Grammar) : Grammar :=
  match g.root with
  | .mk head patterns repository captures begins ends =>
    let patterns := patterns.map (Rule.restrictList p)
    let repository := repository.map fun es => Rule.restrictNamed p (es.filter fun e => left e.1)
    { g with root := .mk head patterns repository captures begins ends }

section Restrict
variable {p : Rule → Bool} {left : String → Bool}

@[simp] theorem patterns_restrict (g : Grammar) :
    (g.restrict p left).patterns = (g.patterns.filter p).map (Rule.restrict p) := by
  rcases g with ⟨_, _, _, _, ps, _, _, _, _⟩
  cases ps <;> simp [restrict, patterns, Rule.patterns, Rule.restrictList_eq]

@[simp] theorem isSome_patterns_restrict (g : Grammar) :
    (g.restrict p left).root.patterns.isSome = g.root.patterns.isSome := by
  rcases g with ⟨_, _, _, _, ps, _, _, _, _⟩
  cases ps <;> rfl

@[simp] theorem entries_restrict (g : Grammar) :
    (g.restrict p left).entries = (g.entries.filter fun e => left e.1).map fun e => (e.1, e.2.restrict p) := by
  rcases g with ⟨_, _, _, _, _, es, _, _, _⟩
  cases es <;> simp [restrict, entries, Rule.repository, Rule.restrictNamed_eq]

theorem keys_entries_restrict (g : Grammar) :
    Assoc.keys (g.restrict p left).entries = (Assoc.keys g.entries).filter left := by
  rw [entries_restrict]
  simp [Assoc.keys, List.filter_map, Function.comp_def]

theorem get?_entries_restrict (g : Grammar) (n : String) : Assoc.get? (g.restrict p left).entries n =
    if left n = true then (Assoc.get? g.entries n).map (Rule.restrict p) else none := by
  rw [entries_restrict]
  induction g.entries with
  | nil => simp
  | cons b es ih =>
    by_cases hb : b.1 = n
    · by_cases hn : left n = true
      · simp [hb, hn, Assoc.get?]
      · simpa [hb, hn, Assoc.get?] using ih
    · by_cases hl : left b.1 = true
      · simpa [hb, hl, Assoc.get?] using ih
      · simpa [hb, hl, Assoc.get?] using ih

/-- Restricting twice takes out what is taken out first, and what is taken out of what is left then. -/
theorem restrict_comp {g : Grammar} {p₁ p₂ : Rule → Bool} {left₁ left₂ : String → Bool}
    (hpatterns : ∀ r ∈ g.patterns, ∀ x ∈ r.visit false, p x = (p₁ x && p₂ (x.restrict p₁)))
    (hleft : ∀ b ∈ g.entries, left b.1 = (left₁ b.1 && left₂ b.1))
    (hentries : ∀ b ∈ g.entries, left b.1 = true → ∀ x ∈ b.2.visit false, p x = (p₁ x && p₂ (x.restrict p₁))) :
    (g.restrict p₁ left₁).restrict p₂ left₂ = g.restrict p left := by
  rcases g with ⟨scope, types, first, head, patterns, entries, captures, begins, ends⟩
  have hps : (patterns.map (Rule.restrictList p₁)).map (Rule.restrictList p₂) = patterns.map (Rule.restrictList p) := by
    cases patterns with
    | none => rfl
    | some rs =>
      exact congrArg some (Rule.restrictList_comp (fun r hr => hpatterns r hr r (Rule.self_mem_visit r))
        fun r hr => Rule.restrict_comp (hpatterns r hr))
  have hes : ∀ es, entries = some es → Rule.restrictNamed p₂ ((Rule.restrictNamed p₁ (es.filter fun e => left₁ e.1)).filter
      fun e => left₂ e.1) = Rule.restrictNamed p (es.filter fun e => left e.1) := by
    rintro es rfl
    have hfilter : (Rule.restrictNamed p₁ (es.filter fun e => left₁ e.1)).filter (fun e => left₂ e.1) =
        Rule.restrictNamed p₁ (es.filter fun e => left e.1) := by
      rw [Rule.restrictNamed_eq, Rule.restrictNamed_eq, List.filter_map, List.filter_filter]
      exact congrArg (List.map _) (List.filter_congr fun e he => by rw [hleft e he, Bool.and_comm]; rfl)
    rw [hfilter]
    exact Rule.restrictNamed_comp fun e he =>
      Rule.restrict_comp (hentries e (List.mem_filter.1 he).1 (List.mem_filter.1 he).2)
  simp only [restrict, hps]
  cases entries with
  | none => rfl
  | some es => rw [Option.map_some, Option.map_some, Option.map_some, hes es rfl]

/-- Only what is decided about the rules and entries of the grammar matters. -/
theorem restrict_congr {g : Grammar} {q : Rule → Bool} {left' : String → Bool}
    (hpatterns : ∀ r ∈ g.patterns, ∀ x ∈ r.visit false, p x = q x)
    (hleft : ∀ b ∈ g.entries, left b.1 = left' b.1)
    (hentries : ∀ b ∈ g.entries, left b.1 = true → ∀ x ∈ b.2.visit false, p x = q x) :
    g.restrict p left = g.restrict q left' := by
  have hp : (g.restrict q left').restrict (fun _ => true) (fun _ => true) = g.restrict p left :=
    restrict_comp (fun r hr x hx => by simp [hpatterns r hr x hx]) (fun b hb => by simp [hleft b hb])
      fun b hb hl x hx => by simp [hentries b hb hl x hx]
  have hq : (g.restrict q left').restrict (fun _ => true) (fun _ => true) = g.restrict q left' :=
    restrict_comp (fun _ _ _ _ => by simp) (fun _ _ => by simp) fun _ _ _ _ _ => by simp
  exact hp.symm.trans hq

end Restrict

/-- The entries that are found live. -/
def liveNames (V : Verdicts) (g : Grammar) : List String :=
  (Liveness.liveEntries V.inquired g.entries (Liveness.reachable g.patterns g.entries)).value V.on

/-- What the walk leaves of the grammar. -/
def left (V : Verdicts) (g : Grammar) : Grammar :=
  g.restrict (V.sees (g.liveNames V)) (g.liveNames V).contains

/-- A grammar without root patterns stays as it is. -/
def leaves (V : Verdicts) (g : Grammar) : Grammar :=
  if g.root.patterns.isSome then g.left V else g

/-- The entries drained, in order, and the state of the walk in the end. -/
def drained (V : Verdicts) (g : Grammar) : List String × PruneWalk :=
  let live := g.liveNames V
  PruneWalk.flush V live g.entries g.entries.length
    (({} : PruneWalk).after (V.effect live (g.patterns.flatMap Rule.trail)))

/-! ## The rules passed -/

/-- The rules that the root patterns lead to inside the grammar: beneath them, and by including entries. -/
inductive Leads (g : Grammar) : Rule → Prop
  | root {r : Rule} : r ∈ g.patterns → Leads g r
  | child {r c : Rule} : Leads g r → c ∈ r.children → Leads g c
  | entry {r e : Rule} {n : String} : Leads g r → r.inclusion? = some (.entry n) → Assoc.get? g.entries n = some e →
      Leads g e

variable {V : Verdicts} {g : Grammar}

theorem Leads.of_mem_visit {r x : Rule} (h : g.Leads r) (hx : x ∈ r.visit false) : g.Leads x := by
  induction r with
  | node r ih =>
    rcases Rule.mem_visit.1 hx with rfl | ⟨c, hc, hx⟩
    · exact h
    · exact ih c hc (h.child hc) hx

/-- The entries included beneath a rule passed are reachable. -/
theorem Leads.reach {r : Rule} (h : g.Leads r) {n : String} (hn : n ∈ r.entryInclusions)
    (hc : Assoc.contains g.entries n = true) : Liveness.Reach g.patterns g.entries n := by
  induction h generalizing n with
  | root hr => exact .root hr hn hc
  | @child r c _ hrc ih =>
    obtain ⟨x, hx, hi⟩ := Rule.mem_entryInclusions.1 hn
    exact ih (Rule.mem_entryInclusions.2 ⟨x, Rule.mem_visit_of_child hrc hx, hi⟩) hc
  | entry _ hi he ih =>
    exact .step (ih (Rule.mem_entryInclusions.2 ⟨_, Rule.self_mem_visit _, hi⟩) (Assoc.contains_of_get? he)) he hn hc

/-- A reachable entry is one that a rule passed includes. -/
theorem reach_iff {n : String} : Liveness.Reach g.patterns g.entries n ↔
    Assoc.contains g.entries n = true ∧ ∃ r, g.Leads r ∧ r.inclusion? = some (.entry n) := by
  constructor
  · intro h
    induction h with
    | root hr hi hc =>
      obtain ⟨x, hx, hi⟩ := Rule.mem_entryInclusions.1 hi
      exact ⟨hc, x, (Leads.root hr).of_mem_visit hx, hi⟩
    | step _ he hi hc ih =>
      obtain ⟨-, r, hr, hri⟩ := ih
      obtain ⟨x, hx, hi⟩ := Rule.mem_entryInclusions.1 hi
      exact ⟨hc, x, (hr.entry hri he).of_mem_visit hx, hi⟩
  · rintro ⟨hc, r, hr, hi⟩
    exact hr.reach (Rule.mem_entryInclusions.2 ⟨r, Rule.self_mem_visit r, hi⟩) hc

theorem leads_of_reach {n : String} {e : Rule} (h : Liveness.Reach g.patterns g.entries n)
    (he : Assoc.get? g.entries n = some e) : g.Leads e := by
  obtain ⟨-, r, hr, hi⟩ := reach_iff.1 h
  exact hr.entry hi he

/-- When a rule passed is live, so is a root pattern. -/
theorem Leads.exists_root {keep : ScopeSet} {foreign : String → Bool} {r : Rule} (h : g.Leads r)
    (hr : r.LiveIn keep foreign g.entries) : ∃ x ∈ g.patterns, x.LiveIn keep foreign g.entries := by
  induction h with
  | root hp => exact ⟨_, hp, hr⟩
  | child _ hc ih => exact ih (.child hc hr)
  | entry _ hi he ih => exact ih (.entry hi he hr)

/-! ## Live entries and marks -/

theorem mem_liveNames {n : String} : n ∈ g.liveNames V ↔ Liveness.Reach g.patterns g.entries n ∧
    ∃ e, Assoc.get? g.entries n = some e ∧ e.LiveIn V.keep V.foreign g.entries := by
  rw [liveNames, Liveness.mem_liveEntries, Liveness.mem_reachable]
  intro n hn e he k hk hc
  exact Liveness.mem_reachable.2 (.step (Liveness.mem_reachable.1 hn) he hk hc)

/-- A live entry is one that the patterns lead to. -/
theorem leads_of_mem_liveNames {n : String} {e : Rule} (hn : n ∈ g.liveNames V) (he : Assoc.get? g.entries n = some e) :
    g.Leads e ∧ e.LiveIn V.keep V.foreign g.entries := by
  obtain ⟨hr, e', he', hl⟩ := mem_liveNames.1 hn
  obtain rfl := Option.some.inj (he.symm.trans he')
  exact ⟨leads_of_reach hr he, hl⟩

/-- A live entry that a rule passed includes is a live one that can be reached. -/
theorem Leads.entry_live {r e : Rule} {n : String} (hr : g.Leads r) (hi : r.inclusion? = some (.entry n))
    (he : Assoc.get? g.entries n = some e) (h : e.LiveIn V.keep V.foreign g.entries) : n ∈ g.liveNames V :=
  mem_liveNames.2 ⟨reach_iff.2 ⟨Assoc.contains_of_get? he, r, hr, hi⟩, e, he, h⟩

theorem mem_keys_of_mem_liveNames : ∀ n ∈ g.liveNames V, n ∈ Assoc.keys g.entries := fun _ hn =>
  Assoc.contains_iff_mem_keys.1 (mem_liveNames.1 hn).1.contains

/-- A rule passed is seen to be live when it is live. -/
theorem sees_iff_liveIn {r : Rule} (hr : g.Leads r) :
    V.sees (g.liveNames V) r = true ↔ r.LiveIn V.keep V.foreign g.entries := by
  refine ⟨.of_anyHead fun n hn => (mem_liveNames.1 hn).2, fun h => ?_⟩
  refine h.anyHead (Liveness.reachable g.patterns g.entries) ?_ ?_ ?_
  · intro n hn e he k hk hc
    exact Liveness.mem_reachable.2 (.step (Liveness.mem_reachable.1 hn) he hk hc)
  · intro n hn e he hl
    exact (Liveness.liveEntries_spec V g.entries _).2 n hn e he hl
  · intro k hk hc
    exact Liveness.mem_reachable.2 (hr.reach hk hc)

theorem draining_start : PruneWalk.Draining (g.liveNames V) []
    (({} : PruneWalk).after (V.effect (g.liveNames V) (g.patterns.flatMap Rule.trail))) :=
  PruneWalk.Draining.after ⟨List.nodup_nil, .refl _, by simp⟩ fun _ hn => PruneWalk.mem_live_of_mem_marks hn

/-- In the end each marked entry has been drained, once. -/
theorem draining_end : (g.drained V).1.Nodup ∧ (g.drained V).2.marked.Perm (g.drained V).1 ∧
    ∀ n ∈ (g.drained V).2.marked, n ∈ g.liveNames V := by
  obtain ⟨hp, hd⟩ := PruneWalk.flush_pending (V := V) mem_keys_of_mem_liveNames g.entries.length draining_start
    (Nat.le_refl _)
  rw [← drained] at hp hd
  have hperm := hd.perm
  rw [hp, List.append_nil, List.nil_append] at hperm
  exact ⟨hperm.nodup_iff.1 hd.nodup, hperm, hd.live⟩

/-- Every entry that is marked is drained. -/
theorem mem_drained {n : String} : n ∈ (g.drained V).1 ↔ n ∈ (g.drained V).2.marked :=
  draining_end.2.1.mem_iff.symm

theorem mem_marks {rs : List Rule} {live : List String} {r : Rule} {n : String} (hr : r ∈ rs) (hn : n ∈ r.entryInclusions)
    (hl : n ∈ live) : n ∈ (V.effect live (rs.flatMap Rule.trail)).marks := by
  obtain ⟨x, hx, hi⟩ := Rule.mem_entryInclusions.1 hn
  refine List.mem_filterMap.2 ⟨x, List.mem_flatMap.2 ⟨r, hr, Rule.mem_trail.2 hx⟩, ?_⟩
  rw [Rule.marked?, hi]
  simp [hl]

/-- What is marked in the end are the live entries. -/
theorem mem_marked {n : String} : n ∈ (g.drained V).2.marked ↔ n ∈ g.liveNames V := by
  obtain ⟨hm, hc⟩ := PruneWalk.mem_marked_flush V (g.liveNames V) g.entries g.entries.length
    (({} : PruneWalk).after (V.effect (g.liveNames V) (g.patterns.flatMap Rule.trail)))
  rw [← drained] at hm hc
  refine ⟨draining_end.2.2 n, fun hn => ?_⟩
  obtain ⟨hr, -⟩ := mem_liveNames.1 hn
  induction hr with
  | root hr hi _ => exact hm _ (PruneWalk.mem_marked_after.2 (.inr (mem_marks hr hi hn)))
  | @step k n e hr he hi _ ih =>
    -- the entry that includes a live one is live itself, so it is drained
    obtain ⟨e', he', hl⟩ := (mem_liveNames.1 hn).2
    obtain ⟨x, hx, hxi⟩ := Rule.mem_entryInclusions.1 hi
    have hk : k ∈ g.liveNames V := mem_liveNames.2 ⟨hr, e, he, .of_mem_visit hx (.entry hxi he' hl)⟩
    refine hc k (mem_drained.2 (ih hk)) n ?_
    have : n ∈ (V.effect (g.liveNames V) ([e].flatMap Rule.trail)).marks := mem_marks List.mem_cons_self hi hn
    simpa [PruneWalk.entryTrail, he] using this

theorem restrictAt_drained : (restrictAt (V.sees (g.liveNames V)) (g.drained V).1 g.entries).filter
    (fun e => (g.drained V).2.marked.contains e.1) =
      Rule.restrictNamed (V.sees (g.liveNames V)) (g.entries.filter fun e => (g.liveNames V).contains e.1) := by
  rw [Rule.restrictNamed_eq, restrictAt, List.filter_map]
  have hmarked : ∀ n, (g.drained V).2.marked.contains n = (g.liveNames V).contains n := by
    intro n
    rw [Bool.eq_iff_iff, List.contains_iff_mem, List.contains_iff_mem, mem_marked]
  simp only [Function.comp_def, hmarked]
  refine List.map_congr_left fun e he => ?_
  have hlive := (List.mem_filter.1 he).2
  rw [if_pos]
  exact mem_drained.2 (mem_marked.2 (by simpa using hlive))

/-! ## The walk as a whole -/

theorem leave_drained (hg : g.root.patterns.isSome) :
    let live := g.liveNames V
    g.leave (Rule.restrictList (V.sees live) g.patterns) (restrictAt (V.sees live) (g.drained V).1 g.entries)
        (g.drained V).2 =
      { grammar := g.left V
        patternsLeft := g.patterns.any (V.sees live)
        removedPatterns := (g.drained V).2.removed + (g.patterns.length - (g.patterns.filter (V.sees live)).length)
        removedEntries := g.entries.length - (g.entries.filter fun e => live.contains e.1).length } := by
  intro live
  have hentries : (Rule.restrictNamed (V.sees live) (g.entries.filter fun e => live.contains e.1)).length =
      (g.entries.filter fun e => live.contains e.1).length := by
    rw [Rule.restrictNamed_eq, List.length_map]
  rw [leave, restrictAt_drained, Rule.not_isEmpty_restrictList, Rule.length_restrictList, ← hentries]
  rcases g with ⟨_, _, _, _, ps, es, _, _, _⟩
  obtain ⟨ps, rfl⟩ := Option.isSome_iff_exists.1 hg
  cases es <;> rfl

/-- The walk through a grammar restricts it to what is live, and asks about all that the rules it passes mention. -/
theorem inquiry_spec (hg : g.root.patterns.isSome) (hk : (Assoc.keys g.entries).Nodup) :
    let live := g.liveNames V
    (g.inquiry V.keep V.loaded).value V.on =
        { grammar := g.left V
          patternsLeft := g.patterns.any (V.sees live)
          removedPatterns := (g.drained V).2.removed + (g.patterns.length - (g.patterns.filter (V.sees live)).length)
          removedEntries := g.entries.length - (g.entries.filter fun e => live.contains e.1).length } ∧
      (g.inquiry V.keep V.loaded).asked V.on =
        (Liveness.liveEntries V.inquired g.entries (Liveness.reachable g.patterns g.entries)).asked V.on ++
          ((g.patterns.flatMap Rule.trail).filterMap (Rule.foreign? V.loaded) ++
            ((g.drained V).1.flatMap (PruneWalk.entryTrail g.entries)).filterMap (Rule.foreign? V.loaded)) := by
  intro live
  -- first the root patterns are pruned, then the entries that this marks are drained
  have hyields : ∀ r ∈ g.patterns, Rule.PruneYields V g.scopeName (Assoc.keys g.entries) live r := fun r _ =>
    Rule.prune_yields V g.scopeName mem_keys_of_mem_liveNames r
  obtain ⟨hp, hps⟩ := Rule.pruneList_yields_of hyields {}
  obtain ⟨hd, hds⟩ := PruneWalk.drain_spec V g.scopeName hk mem_keys_of_mem_liveNames g.entries.length draining_start
  have hstart : restrictAt (V.sees live) [] g.entries = g.entries := by simp [restrictAt]
  have hcontext : g.context (Inquiry.surroundings V.keep V.loaded) (fun d => .report d (.done ())) live =
    V.context g.scopeName (Assoc.keys g.entries) live := rfl
  have hlive : (Liveness.liveEntries (Inquiry.surroundings V.keep V.loaded) g.entries
    (Liveness.reachable g.patterns g.entries)).value V.on = live := rfl
  rw [hstart] at hd hds
  rw [inquiry, pruneRules_some _ _ hg, Inquiry.value_bind, Inquiry.asked_bind, hlive, hcontext, Inquiry.value_bind,
    Inquiry.asked_bind, hp, hps]
  dsimp only
  rw [Inquiry.value_bind, Inquiry.asked_bind, hd, hds, Inquiry.value_pure, Inquiry.asked_pure, List.append_nil]
  exact ⟨leave_drained hg, rfl⟩

theorem inquiry_none (h : g.root.patterns = none) :
    g.inquiry V.keep V.loaded = pure { grammar := g, patternsLeft := false } :=
  pruneRules_none _ _ h

theorem nodup_keys_left (hk : (Assoc.keys g.entries).Nodup) : (Assoc.keys (g.left V).entries).Nodup := by
  rw [left, keys_entries_restrict]
  exact hk.filter _

theorem get?_entries_left (n : String) : Assoc.get? (g.left V).entries n =
    if n ∈ g.liveNames V then (Assoc.get? g.entries n).map (Rule.restrict (V.sees (g.liveNames V))) else none := by
  rw [left, get?_entries_restrict]
  simp only [List.contains_iff_mem]

theorem get?_entries_left_of_live {n : String} {e : Rule} (hn : n ∈ g.liveNames V)
    (he : Assoc.get? g.entries n = some e) :
    Assoc.get? (g.left V).entries n = some (e.restrict (V.sees (g.liveNames V))) := by
  rw [get?_entries_left, if_pos hn, he, Option.map_some]

/-- An entry that is left is what was left of the entry of its name. -/
theorem exists_of_get?_entries_left {n : String} {e' : Rule} (he : Assoc.get? (g.left V).entries n = some e') :
    ∃ e, Assoc.get? g.entries n = some e ∧ e' = e.restrict (V.sees (g.liveNames V)) := by
  rw [get?_entries_left] at he
  split at he
  · obtain ⟨e, hentry, rfl⟩ := Option.map_eq_some_iff.1 he
    exact ⟨e, hentry, rfl⟩
  · cases he

/-- A live root pattern is left. -/
theorem restrict_mem_patterns_left {r : Rule} (hr : r ∈ g.patterns) (h : r.LiveIn V.keep V.foreign g.entries) :
    r.restrict (V.sees (g.liveNames V)) ∈ (g.left V).patterns := by
  rw [left, patterns_restrict]
  exact List.mem_map_of_mem (List.mem_filter.2 ⟨hr, (sees_iff_liveIn (.root hr)).2 h⟩)

theorem leaves_of_mem_patterns {r : Rule} (hr : r ∈ g.patterns) : g.leaves V = g.left V := by
  unfold leaves
  rw [if_pos]
  unfold patterns at hr
  cases hg : g.root.patterns with
  | none => simp [hg] at hr
  | some _ => rfl

/-- What a walk leaves, and when it leaves a root pattern. -/
theorem inquiry_value (hk : (Assoc.keys g.entries).Nodup) :
    ((g.inquiry V.keep V.loaded).value V.on).grammar = g.leaves V ∧
      ((g.inquiry V.keep V.loaded).value V.on).patternsLeft = g.patterns.any (V.sees (g.liveNames V)) := by
  unfold leaves
  cases hg : g.root.patterns with
  | none =>
    rw [inquiry_none hg]
    simp [patterns, hg]
  | some ps =>
    have hg : g.root.patterns.isSome := by rw [hg]; rfl
    rw [(inquiry_spec hg hk).1]
    exact ⟨rfl, rfl⟩

theorem leads_of_mem_foreign {rs : List Rule} {t : String} (hrs : ∀ r ∈ rs, g.Leads r)
    (ht : t ∈ rs.filterMap (Rule.foreign? V.loaded)) :
    V.loaded.contains t = true ∧ ∃ r, g.Leads r ∧ r.inclusion? = some (.grammar t) := by
  obtain ⟨r, hr, hf⟩ := List.mem_filterMap.1 ht
  rw [Rule.foreign?] at hf
  split at hf
  · next hi =>
    split at hf
    · next hl =>
      cases hf
      exact ⟨hl, r, hrs r hr, hi⟩
    · cases hf
  · cases hf

/-- A walk asks only about loaded grammars that the rules it passes include. -/
theorem leads_of_asked (hk : (Assoc.keys g.entries).Nodup) {t : String}
    (ht : t ∈ (g.inquiry V.keep V.loaded).asked V.on) :
    V.loaded.contains t = true ∧ ∃ r, g.Leads r ∧ r.inclusion? = some (.grammar t) := by
  cases hg : g.root.patterns with
  | none =>
    rw [inquiry_none hg] at ht
    cases ht
  | some ps =>
    have hg : g.root.patterns.isSome := by rw [hg]; rfl
    rw [(inquiry_spec hg hk).2, List.mem_append, List.mem_append] at ht
    rcases ht with ht | ht | ht
    · obtain ⟨hl, n, hn, e, he, x, hx, hi⟩ := Liveness.mentions_of_asked_rounds V g.entries _ _ ht
      exact ⟨hl, x, (leads_of_reach (Liveness.mem_reachable.1 hn) he).of_mem_visit hx, hi⟩
    · refine leads_of_mem_foreign (fun x hx => ?_) ht
      obtain ⟨r, hr, hx⟩ := List.mem_flatMap.1 hx
      exact (Leads.root hr).of_mem_visit (Rule.mem_trail.1 hx)
    · refine leads_of_mem_foreign (fun x hx => ?_) ht
      obtain ⟨n, hn, hx⟩ := List.mem_flatMap.1 hx
      obtain ⟨hr, e, he, -⟩ := mem_liveNames.1 (mem_marked.1 (mem_drained.1 hn))
      rw [PruneWalk.entryTrail, he] at hx
      exact (leads_of_reach hr he).of_mem_visit (Rule.mem_trail.1 hx)

/-- When no pattern is left, nothing that the walk asks about is kept. -/
theorem eq_false_of_asked (hk : (Assoc.keys g.entries).Nodup) {t : String}
    (hleft : ((g.inquiry V.keep V.loaded).value V.on).patternsLeft = false)
    (ht : t ∈ (g.inquiry V.keep V.loaded).asked V.on) : V.on t = false := by
  obtain ⟨hl, r, hr, hi⟩ := leads_of_asked hk ht
  rw [← Bool.not_eq_true]
  intro hon
  have hforeign : V.foreign t = true := by rw [Verdicts.foreign, if_pos hl, hon]
  obtain ⟨x, hx, hlive⟩ := hr.exists_root (.grammar hi hforeign)
  rw [(inquiry_value hk).2, ← Bool.not_eq_true, List.any_eq_true] at hleft
  exact hleft ⟨x, hx, (sees_iff_liveIn (.root hx)).2 hlive⟩

end Grammar

end ScopeActions
