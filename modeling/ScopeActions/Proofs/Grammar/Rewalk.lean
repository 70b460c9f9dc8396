import ScopeActions.Proofs.Grammar.Thin
/-!
# Walking through what a walk left

With the same verdicts, a walk through what a walk left of a grammar finds the same live entries, removes nothing
and asks the same as the first, but for grammars that are not kept (`Grammar.inquiry_left`). What the search for
reachable entries finds is what it found before without the entries that are gone, in the same order.
-/

namespace ScopeActions

/-! ## Searching for reachable entries again -/

namespace Liveness
variable {V : Verdicts} {live found : List String} {patterns stack : List Rule} {entries entries' : List (String × Rule)}

theorem filter_entryInclusions (r : Rule) :
    r.entryInclusions.filter live.contains = (r.visit false).filterMap (Rule.marked? live) := by
  rw [Rule.entryInclusions, List.filter_filterMap]
  refine List.filterMap_congr fun x _ => ?_
  rw [Rule.marked?]
  cases x.inclusion? with
  | none => rfl
  | some i => cases i <;> simp [Option.filter]

/-- What is left of a rule includes the same live entries. -/
theorem filter_entryInclusions_restrict (r : Rule) :
    (r.restrict (V.sees live)).entryInclusions.filter live.contains = r.entryInclusions.filter live.contains := by
  rw [filter_entryInclusions, filter_entryInclusions]
  exact Verdicts.marks_of_cuts (Rule.visit_cuts r)

/-- A rule that includes a live entry is seen to be live. -/
theorem sees_of_mem_entryInclusions {r : Rule} {n : String} (hn : n ∈ r.entryInclusions) (hl : n ∈ live) :
    V.sees live r = true := by
  obtain ⟨x, hx, hi⟩ := Rule.mem_entryInclusions.1 hn
  exact Rule.anyHead_iff.2 ⟨x, hx, gives_iff.2 (.inr (.inl ⟨n, hl, hi⟩))⟩

theorem contains_left (hl : Left V live entries entries') (hsub : ∀ n ∈ live, Assoc.contains entries n = true)
    (n : String) : Assoc.contains entries' n = live.contains n := by
  unfold Assoc.contains
  rw [hl n]
  by_cases hn : n ∈ live
  · obtain ⟨e, he⟩ := Assoc.exists_of_contains (hsub n hn)
    simp [hn, he]
  · simp [hn]

/-- There are no more live entries than entries left. -/
theorem length_live_le (hl : Left V live entries entries') (hsub : ∀ n ∈ live, Assoc.contains entries n = true)
    {names : List String} (hn : names.Nodup) (h : ∀ n ∈ names, n ∈ live) : names.length ≤ entries'.length := by
  have hkeys : names ⊆ Assoc.keys entries' := by
    intro n hm
    rw [← Assoc.contains_iff_mem_keys, contains_left hl hsub, List.contains_iff_mem]
    exact h n hm
  simpa [Assoc.keys] using (hn.subperm hkeys).length_le

/-- The entries discovered among those left are the live ones discovered before. -/
theorem discover_left (hl : Left V live entries entries') (hsub : ∀ n ∈ live, Assoc.contains entries n = true)
    (names : List String) :
    discover entries' (found.filter live.contains) names = (discover entries found names).filter live.contains := by
  induction names generalizing found with
  | nil => rfl
  | cons name names ih =>
    unfold discover at ih ⊢
    rw [List.foldl_cons, List.foldl_cons, contains_left hl hsub]
    by_cases hn : name ∈ live
    · have hc : (found.filter live.contains).contains name = found.contains name := by
        simp [hn]
      rw [hc, hsub name hn, List.contains_iff_mem.2 hn]
      split
      · rw [← ih]
        simp [hn]
      · exact ih
    · have hlive : live.contains name = false := by simpa using hn
      rw [hlive, ← ih]
      simp only [Bool.false_and, Bool.false_eq_true, if_false]
      split
      · simp [hn]
      · rfl

theorem discover_filter (hl : Left V live entries entries') (hsub : ∀ n ∈ live, Assoc.contains entries n = true)
    (names : List String) :
    discover entries' found (names.filter live.contains) = discover entries' found names := by
  unfold discover
  rw [List.foldl_filter]
  refine congrArg (fun f => names.foldl f found) (funext fun found => funext fun name => ?_)
  rw [contains_left hl hsub]
  cases live.contains name <;> simp

/-- So are those that a rule leads to, when it is restricted. -/
theorem discover_restrict (hl : Left V live entries entries') (hsub : ∀ n ∈ live, Assoc.contains entries n = true)
    {r : Rule} {fresh : List String} (hf : discover entries found r.entryInclusions = found ++ fresh) :
    discover entries' (found.filter live.contains) (r.restrict (V.sees live)).entryInclusions =
      found.filter live.contains ++ fresh.filter live.contains := by
  rw [← discover_filter hl hsub, filter_entryInclusions_restrict, discover_filter hl hsub, discover_left hl hsub, hf,
    List.filter_append]

/-- The rules of the live entries among some reachable ones, before and after. -/
theorem filterMap_left (hl : Left V live entries entries') {names : List String}
    (h : ∀ n ∈ names, ∀ e, Assoc.get? entries n = some e → (n ∈ live ↔ V.sees live e = true)) :
    (names.filter live.contains).filterMap (Assoc.get? entries') =
      ((names.filterMap (Assoc.get? entries)).filter (V.sees live)).map (Rule.restrict (V.sees live)) := by
  induction names with
  | nil => rfl
  | cons n names ih =>
    have htail := ih fun k hk => h k (List.mem_cons_of_mem n hk)
    have hhead := h n List.mem_cons_self
    by_cases hn : n ∈ live
    · rw [List.filter_cons_of_pos (List.contains_iff_mem.2 hn), List.filterMap_cons, hl n, if_pos hn, List.filterMap_cons]
      cases he : Assoc.get? entries n with
      | none => exact htail
      | some e =>
        dsimp only [Option.map_some]
        rw [List.filter_cons_of_pos ((hhead e he).1 hn), List.map_cons, htail]
    · have hc : ¬live.contains n = true := fun h => hn (List.contains_iff_mem.1 h)
      rw [List.filter_cons_of_neg hc, List.filterMap_cons]
      cases he : Assoc.get? entries n with
      | none => exact htail
      | some e =>
        have hsees : ¬V.sees live e = true := fun hs => hn ((hhead e he).2 hs)
        rw [List.filter_cons_of_neg hsees, htail]

/-- The search that goes through the live part of the stack finds the live part of what is found. -/
theorem follow_left (hl : Left V live entries entries') (hsub : ∀ n ∈ live, Assoc.contains entries n = true)
    (hsees : ∀ n, Reach patterns entries n → ∀ e, Assoc.get? entries n = some e → (n ∈ live ↔ V.sees live e = true))
    (k m : Nat) (h : Searching patterns entries found stack) (hk : stack.length + entries.length ≤ k + found.length)
    (hm : (stack.filter (V.sees live)).length + entries'.length ≤ m + (found.filter live.contains).length) :
    follow entries' m (found.filter live.contains) ((stack.filter (V.sees live)).map (Rule.restrict (V.sees live))) =
      (follow entries k found stack).filter live.contains := by
  induction k generalizing m found stack with
  | zero =>
    have := h.length_le
    obtain rfl : stack = [] := List.eq_nil_of_length_eq_zero (by omega)
    exact follow_nil m _
  | succ k ih =>
    cases stack with
    | nil => exact follow_nil m _
    | cons r stack =>
      obtain ⟨fresh, hf, hn, hfresh⟩ := discover_spec entries found r.entryInclusions
      have hnext := h.next hn hfresh
      have hreach : ∀ n ∈ fresh, Reach patterns entries n := fun n hm =>
        hnext.reach n (List.mem_append_right found hm)
      have hrules := filterMap_left hl fun n hm => hsees n (hreach n hm)
      have hlen := length_filterMap_get? fun n hm => ((hfresh n).1 hm).2.1
      have hlen' : ((fresh.filterMap (Assoc.get? entries)).filter (V.sees live)).length =
          (fresh.filter live.contains).length := by
        rw [← List.length_map (Rule.restrict (V.sees live)), ← hrules]
        refine length_filterMap_get? fun n hm => ?_
        rw [contains_left hl hsub]
        exact (List.mem_filter.1 hm).2
      -- both stacks grow alike, but for rules that are not live
      have hstack : (((fresh.filterMap (Assoc.get? entries)).reverse ++ stack).filter (V.sees live)).map
          (Rule.restrict (V.sees live)) = ((fresh.filter live.contains).filterMap (Assoc.get? entries')).reverse ++
            (stack.filter (V.sees live)).map (Rule.restrict (V.sees live)) := by
        rw [List.filter_append, List.filter_reverse, List.map_append, List.map_reverse, ← hrules]
      have hstackLen := congrArg List.length (List.filter_append (p := V.sees live)
        (fresh.filterMap (Assoc.get? entries)).reverse stack)
      have hfound := congrArg List.length (List.filter_append (p := live.contains) found fresh)
      rw [List.filter_reverse, List.length_append, List.length_reverse, hlen'] at hstackLen
      rw [List.length_append] at hfound
      have hfuel : ((fresh.filterMap (Assoc.get? entries)).reverse ++ stack).length + entries.length ≤
          k + (found ++ fresh).length := by
        simp only [List.length_append, List.length_reverse, hlen, List.length_cons] at hk ⊢
        omega
      rw [follow_cons hf]
      by_cases hr : V.sees live r = true
      · rw [List.filter_cons_of_pos hr] at hm ⊢
        have hle := length_live_le hl hsub (h.nodup.filter live.contains) fun n hn =>
          List.contains_iff_mem.1 (List.mem_filter.1 hn).2
        rw [List.length_cons] at hm
        obtain ⟨m, rfl⟩ : ∃ j, m = j + 1 := ⟨m - 1, by omega⟩
        rw [← ih m hnext hfuel (by omega), hstack, List.map_cons, follow_cons (discover_restrict hl hsub hf),
          List.filter_append]
      · rw [List.filter_cons_of_neg hr] at hm ⊢
        -- a rule that is not live leads to nothing live
        have hnil : fresh.filter live.contains = [] := by
          refine List.filter_eq_nil_iff.2 fun n hn hlive => hr ?_
          exact sees_of_mem_entryInclusions ((hfresh n).1 hn).1 (List.contains_iff_mem.1 hlive)
        rw [hnil] at hstack hfound hstackLen
        rw [← ih m hnext hfuel (by rw [hstackLen, hfound]; simpa using hm), hstack, List.filter_append, hnil]
        simp

/-- The entries reachable from what is left are the live ones that were reachable, in the same order. -/
theorem reachable_left (hl : Left V live entries entries') (hsub : ∀ n ∈ live, Assoc.contains entries n = true)
    (hsees : ∀ n, Reach patterns entries n → ∀ e, Assoc.get? entries n = some e → (n ∈ live ↔ V.sees live e = true)) :
    reachable ((patterns.filter (V.sees live)).map (Rule.restrict (V.sees live))) entries' =
      (reachable patterns entries).filter live.contains := by
  unfold reachable
  rw [← List.map_reverse, ← List.filter_reverse]
  refine follow_left hl hsub hsees _ _ .start (by simp) ?_
  rw [List.filter_reverse, List.length_reverse, List.length_map]
  exact Nat.le_add_right _ _

end Liveness

/-! ## Draining again -/

namespace PruneWalk
variable {V : Verdicts} {live drained : List String} {entries entries' : List (String × Rule)} {w w' : PruneWalk}

/-- Two walks have marked the same entries, and the same are pending. -/
structure Alike (w w' : PruneWalk) : Prop where
  marked : w'.marked = w.marked
  pending : w'.pending = w.pending

theorem Alike.after {d e : Effect} (h : Alike w w') (he : e.marks = d.marks) : Alike (w.after d) (w'.after e) := by
  have marks : ∀ (ns : List String) (w w' : PruneWalk), Alike w w' → Alike (ns.foldl mark w) (ns.foldl mark w') := by
    intro ns
    induction ns with
    | nil => exact fun _ _ h => h
    | cons n ns ih =>
      intro w w' h
      refine ih _ _ ?_
      unfold mark
      rw [h.marked]
      split
      · exact h
      · exact ⟨rfl, congrArg (n :: ·) h.pending⟩
  obtain ⟨hm, hp⟩ := marks d.marks w w' h
  unfold PruneWalk.after
  rw [he]
  exact ⟨hm, hp⟩

/-- The rules passed when an entry that is left is drained. -/
theorem entryTrail_cuts (hl : Liveness.Left V live entries entries') {name : String} (hn : name ∈ live) :
    Rule.Cuts (V.sees live) (RuleHead.gives V.keep V.foreign live) (entryTrail entries name) (entryTrail entries' name) ∧
      ∀ r ∈ entryTrail entries' name, ∃ x, r = Rule.restrict (V.sees live) x := by
  unfold entryTrail
  rw [hl name, if_pos hn]
  cases Assoc.get? entries name with
  | none => exact ⟨.nil, fun _ h => by cases h⟩
  | some e =>
    refine ⟨Rule.trail_cuts e, fun r hr => ?_⟩
    obtain ⟨x, -, rfl⟩ := Rule.exists_of_mem_visit_restrict (Rule.mem_trail.1 hr)
    exact ⟨x, rfl⟩

theorem flush_of_pending_eq_nil (hp : w.pending = []) (n : Nat) : flush V live entries n w = ([], w) := by
  cases n with
  | zero => rfl
  | succ n => rw [flush, hp]

/-- Draining goes through the same entries, and removes nothing. -/
theorem flush_left (hl : Liveness.Left V live entries entries')
    (hsub : ∀ n ∈ live, Assoc.contains entries n = true) (n m : Nat) (h : Draining live drained w) (hw : Alike w w')
    (hn : entries.length ≤ n + drained.length) (hm : entries'.length ≤ m + drained.length) :
    (flush V live entries' m w').1 = (flush V live entries n w).1 ∧
      (flush V live entries' m w').2.removed = w'.removed := by
  induction n generalizing m drained w w' with
  | zero =>
    have hkeys : ∀ n ∈ live, n ∈ Assoc.keys entries := fun n hn => Assoc.contains_iff_mem_keys.1 (hsub n hn)
    -- the first walk has nothing pending when its steps are used up, so neither has the second
    have hp : w.pending = [] := (flush_pending (V := V) hkeys 0 h hn).1
    rw [flush_of_pending_eq_nil (hw.pending.trans hp), flush_of_pending_eq_nil hp]
    exact ⟨rfl, rfl⟩
  | succ n ih =>
    cases hp : w.pending with
    | nil =>
      rw [flush_of_pending_eq_nil (hw.pending.trans hp), flush_of_pending_eq_nil hp]
      exact ⟨rfl, rfl⟩
    | cons name pending =>
      have hname : name ∈ live := h.live name (h.perm.mem_iff.2 (by simp [hp]))
      obtain ⟨hcuts, hrestricted⟩ := entryTrail_cuts hl hname
      obtain ⟨hmarks, hremoved, -⟩ := Verdicts.effect_of_cuts hcuts hrestricted
      have hlen : drained.length + (pending.length + 1) ≤ entries'.length := by
        have := Liveness.length_live_le hl hsub h.nodup h.live
        rwa [h.perm.length_eq, hp, List.length_append, List.length_cons] at this
      obtain ⟨m, rfl⟩ : ∃ j, m = j + 1 := ⟨m - 1, by omega⟩
      have hpop : Alike { w with pending } { w' with pending } := ⟨hw.marked, rfl⟩
      have hafter := (h.pop hp).after (e := V.effect live (entryTrail entries name)) fun k hk => mem_live_of_mem_marks hk
      obtain ⟨hnames, hrest⟩ := ih m hafter (hpop.after hmarks)
        (by simp only [List.length_append, List.length_singleton]; omega)
        (by simp only [List.length_append, List.length_singleton]; omega)
      rw [flush, flush, hp, hw.pending.trans hp]
      refine ⟨congrArg (name :: ·) hnames, hrest.trans ?_⟩
      rw [removed_after, hremoved]
      rfl

end PruneWalk

/-! ## Walking through the grammar again -/

namespace Grammar
variable {V : Verdicts} {g : Grammar}

theorem entries_left : Liveness.Left V (g.liveNames V) g.entries (g.left V).entries := fun _ => get?_entries_left _

theorem contains_of_mem_liveNames : ∀ n ∈ g.liveNames V, Assoc.contains g.entries n = true := fun _ hn =>
  (mem_liveNames.1 hn).1.contains

theorem mem_liveNames_iff_sees (n : String) (hn : Liveness.Reach g.patterns g.entries n) (e : Rule)
    (he : Assoc.get? g.entries n = some e) : n ∈ g.liveNames V ↔ V.sees (g.liveNames V) e = true := by
  rw [mem_liveNames, sees_iff_liveIn (leads_of_reach hn he)]
  constructor
  · rintro ⟨-, e', he', hl⟩
    obtain rfl := Option.some.inj (he'.symm.trans he)
    exact hl
  · intro hl
    exact ⟨hn, e, he, hl⟩

/-- The entries that can be reached in what is left are the live ones, in the order of the first search. -/
theorem reachable_entries_left : Liveness.reachable (g.left V).patterns (g.left V).entries =
    (Liveness.reachable g.patterns g.entries).filter (g.liveNames V).contains := by
  have h := Liveness.reachable_left entries_left contains_of_mem_liveNames (mem_liveNames_iff_sees (V := V) (g := g))
  rw [← h]
  exact congrArg (Liveness.reachable · (g.left V).entries) (patterns_restrict g)

theorem liveEntries_again : (g.left V).liveNames V = g.liveNames V ∧
    Thins V.on ((Liveness.liveEntries V.inquired g.entries (Liveness.reachable g.patterns g.entries)).asked V.on)
      ((Liveness.liveEntries V.inquired (g.left V).entries
        (Liveness.reachable (g.left V).patterns (g.left V).entries)).asked V.on) := by
  unfold liveNames
  rw [reachable_entries_left]
  exact Liveness.liveEntries_left rfl entries_left

theorem liveNames_left : (g.left V).liveNames V = g.liveNames V := liveEntries_again.1

/-- A second walk leaves all that the first has left. -/
theorem left_left : (g.left V).left V = g.left V := by
  have h : (g.left V).left V = (g.left V).restrict (V.sees (g.liveNames V)) (g.liveNames V).contains := by
    rw [left, liveNames_left]
  have hsees : ∀ x : Rule, V.sees (g.liveNames V) x =
      (V.sees (g.liveNames V) x && V.sees (g.liveNames V) (x.restrict (V.sees (g.liveNames V)))) := by
    intro x
    rw [Verdicts.sees_restrict fun _ hn => hn, Bool.and_self]
  exact h.trans (restrict_comp (fun _ _ x _ => hsees x) (fun _ _ => (Bool.and_self _).symm) fun _ _ _ x _ => hsees x)

/-- The rules passed at the start of a second walk. -/
theorem trail_left : let live := g.liveNames V
    Rule.Cuts (V.sees live) (RuleHead.gives V.keep V.foreign live) (g.patterns.flatMap Rule.trail)
        ((g.left V).patterns.flatMap Rule.trail) ∧
      ∀ r ∈ (g.left V).patterns.flatMap Rule.trail, ∃ x, r = Rule.restrict (V.sees live) x := by
  intro live
  have hpatterns : (g.left V).patterns = (g.patterns.filter (V.sees live)).map (Rule.restrict (V.sees live)) :=
    patterns_restrict g
  rw [hpatterns]
  refine ⟨Rule.Cuts.flatMap_filter (fun r x => Rule.mem_trail.1) fun r _ => Rule.trail_cuts r, fun r hr => ?_⟩
  obtain ⟨c, hc, hr⟩ := List.mem_flatMap.1 hr
  obtain ⟨d, -, rfl⟩ := List.mem_map.1 hc
  obtain ⟨x, -, rfl⟩ := Rule.exists_of_mem_visit_restrict (Rule.mem_trail.1 hr)
  exact ⟨x, rfl⟩

/-- A second walk drains the same entries, in the same order. -/
theorem drained_left : ((g.left V).drained V).1 = (g.drained V).1 ∧ ((g.left V).drained V).2.removed = 0 := by
  obtain ⟨hcuts, hrestricted⟩ := trail_left (V := V) (g := g)
  obtain ⟨hmarks, hremoved, -⟩ := Verdicts.effect_of_cuts hcuts hrestricted
  have halike : PruneWalk.Alike ({} : PruneWalk) {} := ⟨rfl, rfl⟩
  obtain ⟨hnames, hrest⟩ := PruneWalk.flush_left entries_left contains_of_mem_liveNames g.entries.length
    (g.left V).entries.length draining_start (halike.after hmarks) (Nat.le_refl _) (Nat.le_refl _)
  unfold drained
  rw [liveNames_left]
  exact ⟨hnames, hrest.trans ((PruneWalk.removed_after _ _).trans (by rw [hremoved]))⟩

theorem mem_liveNames_of_mem_drained {n : String} (hn : n ∈ (g.drained V).1) : n ∈ g.liveNames V :=
  mem_marked.1 (mem_drained.1 hn)

theorem thins_drained : Thins V.on
    (((g.drained V).1.flatMap (PruneWalk.entryTrail g.entries)).filterMap (Rule.foreign? V.loaded))
    ((((g.left V).drained V).1.flatMap (PruneWalk.entryTrail (g.left V).entries)).filterMap
      (Rule.foreign? V.loaded)) := by
  rw [drained_left.1, List.filterMap_flatMap, List.filterMap_flatMap]
  refine Thins.flatMap _ fun n hn => ?_
  have hcuts := (PruneWalk.entryTrail_cuts entries_left (mem_liveNames_of_mem_drained hn)).1
  exact Verdicts.asks_of_cuts hcuts

/-- A second walk takes nothing away. -/
theorem filter_left : (g.left V).patterns.filter (V.sees (g.liveNames V)) = (g.left V).patterns ∧
    (g.left V).entries.filter (fun e => (g.liveNames V).contains e.1) = (g.left V).entries := by
  unfold left
  rw [patterns_restrict, entries_restrict, List.filter_eq_self, List.filter_eq_self]
  constructor
  · intro r hr
    obtain ⟨d, hd, rfl⟩ := List.mem_map.1 hr
    rw [Verdicts.sees_restrict fun _ hn => hn]
    exact (List.mem_filter.1 hd).2
  · intro e he
    obtain ⟨d, hd, rfl⟩ := List.mem_map.1 he
    exact (List.mem_filter.1 hd).2

/-- A walk through what a walk left changes and removes nothing, and it asks the same but for grammars that are not
kept. -/
theorem inquiry_left (hk : (Assoc.keys g.entries).Nodup) :
    ((g.leaves V).inquiry V.keep V.loaded).value V.on =
        { grammar := g.leaves V, patternsLeft := ((g.inquiry V.keep V.loaded).value V.on).patternsLeft } ∧
      Thins V.on ((g.inquiry V.keep V.loaded).asked V.on) (((g.leaves V).inquiry V.keep V.loaded).asked V.on) := by
  cases hg : g.root.patterns with
  | none =>
    have hleaves : g.leaves V = g := by simp [leaves, hg]
    rw [hleaves, inquiry_none hg]
    exact ⟨rfl, .nil⟩
  | some ps =>
    have hg : g.root.patterns.isSome := by rw [hg]; rfl
    have hleaves : g.leaves V = g.left V := by rw [leaves, if_pos hg]
    have hg' : (g.left V).root.patterns.isSome := (isSome_patterns_restrict g).trans hg
    obtain ⟨hv, ha⟩ := inquiry_spec (V := V) hg hk
    obtain ⟨hv', ha'⟩ := inquiry_spec (V := V) hg' (nodup_keys_left hk)
    have hany : (g.left V).patterns.any (V.sees (g.liveNames V)) = g.patterns.any (V.sees (g.liveNames V)) := by
      have hpatterns : (g.left V).patterns = (g.patterns.filter (V.sees (g.liveNames V))).map
        (Rule.restrict (V.sees (g.liveNames V))) := patterns_restrict g
      rw [hpatterns, Verdicts.any_restrict fun _ hn => hn, Verdicts.any_filter fun _ hn => hn]
    obtain ⟨hpatterns, hentries⟩ := filter_left (V := V) (g := g)
    rw [hleaves, hv, hv', ha, ha']
    refine ⟨?_, liveEntries_again.2.append ((Verdicts.asks_of_cuts trail_left.1).append thins_drained)⟩
    rw [left_left, liveNames_left, hany, hpatterns, hentries, drained_left.2, Nat.sub_self, Nat.sub_self]

/-! ## Grammars of which nothing is left -/

/-- No root pattern is left, and no entry either, unless the grammar has had no root patterns. -/
def Emptied (g : Grammar) : Prop :=
  g.patterns = [] ∧ (g.root.patterns.isSome → g.entries = [])

/-- A walk through such a grammar asks nothing and takes nothing away. -/
theorem Emptied.inquiry (h : g.Emptied) (keep : ScopeSet) (loaded : List String) :
    g.inquiry keep loaded = pure { grammar := g, patternsLeft := false } := by
  rcases g with ⟨scope, types, first, head, patterns, entries, captures, begins, ends⟩
  obtain ⟨hp, he⟩ := h
  cases patterns with
  | none => rfl
  | some rs =>
    obtain rfl : rs = [] := hp
    cases entries with
    | none => rfl
    | some es =>
      obtain rfl : es = [] := he rfl
      rfl

/-- A walk that leaves no root pattern leaves no entry either. -/
theorem emptied_inquiry (hk : (Assoc.keys g.entries).Nodup)
    (hleft : ((g.inquiry V.keep V.loaded).value V.on).patternsLeft = false) :
    ((g.inquiry V.keep V.loaded).value V.on).grammar.Emptied := by
  obtain ⟨hgrammar, hany⟩ := inquiry_value (V := V) hk
  rw [hany] at hleft
  rw [hgrammar]
  have hfilter : g.patterns.filter (V.sees (g.liveNames V)) = [] := by
    rw [List.filter_eq_nil_iff]
    intro r hr hs
    exact Bool.false_ne_true (hleft.symm.trans (List.any_eq_true.2 ⟨r, hr, hs⟩))
  unfold leaves
  split
  · refine ⟨(patterns_restrict g).trans (by rw [hfilter]; rfl), fun _ => ?_⟩
    have hlive : ∀ n, n ∉ g.liveNames V := by
      intro n hn
      obtain ⟨hr, e, he, hl⟩ := mem_liveNames.1 hn
      obtain ⟨x, hx, hlive⟩ := (leads_of_reach hr he).exists_root hl
      have := List.mem_filter.2 ⟨hx, (sees_iff_liveIn (.root hx)).2 hlive⟩
      rw [hfilter] at this
      cases this
    refine (entries_restrict g).trans ?_
    rw [List.map_eq_nil_iff, List.filter_eq_nil_iff]
    intro b _ hb
    exact hlive b.1 (List.contains_iff_mem.1 hb)
  · next hg => exact ⟨by simp [patterns, Option.not_isSome_iff_eq_none.1 hg], fun h => absurd h hg⟩

end Grammar

end ScopeActions
