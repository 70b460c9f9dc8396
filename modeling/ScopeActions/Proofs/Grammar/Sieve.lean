import ScopeActions.Proofs.Grammar.Leave
/-!
# What a sieve takes out

A walk takes rules out of the lists of patterns and entries out of the repository, as a sieve does. On its way it
passes every rule beneath the root patterns and beneath the entries that stay, also those beneath a pattern that it
takes out. `Grammar.removals_perm` says what that adds to the patterns taken out of the lists that are left, and
`Grammar.sift_eq_self_iff` that a grammar stays as it is when nothing is taken out.
-/

namespace ScopeActions

/-- Which rules stay in their lists of patterns, and which entries in the repository. -/
structure Sieve where
  rule : Rule → Bool
  entry : String → Bool
  /-- A rule stays when one beneath it does. -/
  upward : ∀ r c, c ∈ r.children → rule c = true → rule r = true

namespace Sieve

/-- Everything stays. -/
def all : Sieve := ⟨fun _ => true, fun _ => true, fun _ _ _ _ => rfl⟩

variable (S : Sieve)

/-- Nothing beneath a rule stays that does not stay itself. -/
theorem rule_eq_false {r x : Rule} (hr : S.rule r = false) (hx : x ∈ r.visit false) : S.rule x = false := by
  induction r with
  | node r ih =>
    rcases Rule.mem_visit.1 hx with rfl | ⟨c, hc, hx⟩
    · exact hr
    · refine ih c hc ?_ hx
      rw [← Bool.not_eq_true] at hr ⊢
      exact fun h => hr (S.upward r c hc h)

end Sieve

namespace Rule

/-! ## The patterns of a rule -/

/-- The patterns in the lists of the rule and of those beneath it. -/
def nested (r : Rule) : List Rule := (r.visit false).flatMap patternList

/-- The patterns that are taken out of the list of the rule. -/
def rejected (S : Sieve) (r : Rule) : List Rule := r.patternList.filter fun c => !S.rule c

/-- The rules that are left of the rule and of those beneath it. -/
def standing (S : Sieve) (r : Rule) : List Rule :=
  r :: (r.captured ++ r.patternList.filter S.rule).attach.flatMap fun c => standing S c.1
termination_by sizeOf r
decreasing_by
  refine sizeOf_lt_of_mem_children (mem_children.2 ?_)
  exact (List.mem_append.1 c.2).imp_right fun hc => (List.mem_filter.1 hc).1

variable {S : Sieve}

theorem standing_eq (r : Rule) :
    r.standing S = r :: (r.captured ++ r.patternList.filter S.rule).flatMap (standing S) := by
  rw [standing, List.flatMap_subtype (fun x _ => rfl), List.unattach_attach]

theorem cut_eq (r : Rule) : r.cut S.rule = (r.rejected S).length := by
  rw [cut, rejected, List.length_eq_length_filter_add S.rule, Nat.add_sub_cancel_left]

theorem trail_perm_visit (r : Rule) : r.trail.Perm (r.visit false) := by
  induction r with
  | node r ih =>
    rw [trail_eq, visit_eq, children, List.flatMap_append]
    have hcaptured := List.Perm.flatMap_left r.captured fun c hc => ih c (mem_children.2 (.inl hc))
    have hpatterns := List.Perm.flatMap_left r.patternList fun c hc => ih c (mem_children.2 (.inr hc))
    refine (List.perm_append_singleton r _).trans (.cons r ?_)
    exact (hcaptured.append hpatterns).trans List.perm_append_comm

/-- A rule that does not stay loses all patterns in it and beneath it. -/
theorem rejected_trail {r : Rule} (hr : S.rule r = false) : (r.trail.flatMap (rejected S)).Perm r.nested := by
  refine r.trail_perm_visit.flatMap fun x hx => ?_
  have hall : x.rejected S = x.patternList := by
    refine List.filter_eq_self.2 fun c hc => ?_
    have hc := mem_visit_of_child (mem_children.2 (.inr hc)) (self_mem_visit c)
    rw [S.rule_eq_false hr (mem_visit_trans (mem_trail.1 hx) hc), Bool.not_false]
  rw [hall]

/-- The patterns taken out of the list of the rule, and all that is nested in them. -/
def lost (S : Sieve) (r : Rule) : List Rule := r.rejected S ++ (r.rejected S).flatMap nested

/-- Some rules that all stay are passed, and the rules of a list of patterns. What is taken out on the way is lost by
the rules that are left, or nested in the patterns that do not stay. -/
theorem rejected_trails_perm (cs ps : List Rule)
    (h : ∀ c ∈ cs ++ ps, (c.trail.flatMap (rejected S)).Perm ((c.standing S).flatMap (lost S))) :
    ((cs ++ ps).flatMap fun c => c.trail.flatMap (rejected S)).Perm
      (((cs ++ ps.filter S.rule).flatMap (standing S)).flatMap (lost S) ++
        (ps.filter fun c => !S.rule c).flatMap nested) := by
  have hparts : (cs ++ ps).Perm ((cs ++ ps.filter S.rule) ++ ps.filter fun c => !S.rule c) := by
    rw [List.append_assoc]
    exact (List.filter_append_perm S.rule ps).symm.append_left cs
  refine (hparts.flatMap_right _).trans ?_
  rw [List.flatMap_append, List.flatMap_assoc]
  refine List.Perm.append (List.Perm.flatMap_left _ fun c hc => h c ?_) (List.Perm.flatMap_left _ fun c hc => ?_)
  · rw [List.mem_append] at hc ⊢
    exact hc.imp_right fun hc => (List.mem_filter.1 hc).1
  · exact rejected_trail (by simpa using (List.mem_filter.1 hc).2)

/-- What is taken out when the rule is passed is lost by the rules that are left. -/
theorem rejected_trail_perm (r : Rule) : (r.trail.flatMap (rejected S)).Perm ((r.standing S).flatMap (lost S)) := by
  induction r with
  | node r ih =>
    have hbeneath := rejected_trails_perm r.captured r.patternList ih
    rw [trail_eq, standing_eq, List.flatMap_append, List.flatMap_assoc, List.flatMap_singleton, List.flatMap_cons]
    -- the rule itself comes last in its trail
    refine (hbeneath.append_right _).trans (List.perm_append_comm.trans ?_)
    rw [lost, List.append_assoc]
    exact (List.perm_append_comm).append_left _

/-! ## Rules that stay as they are -/

section Whole
variable {p : Rule → Bool}

theorem restrictList_eq_self_iff {rs : List Rule} :
    restrictList p rs = rs ↔ ∀ r ∈ rs, p r = true ∧ r.restrict p = r := by
  induction rs with
  | nil => simp [restrictList]
  | cons r rs ih =>
    rw [restrictList, List.forall_mem_cons]
    split
    · next hr => rw [List.cons_eq_cons, ih, and_iff_right hr]
    · next hr =>
      refine ⟨fun h => ?_, fun h => absurd h.1.1 hr⟩
      -- the list that is left is too short
      have hlen := congrArg List.length h
      have hle := List.length_filter_le p rs
      rw [length_restrictList, List.length_cons] at hlen
      omega

theorem restrictNamed_eq_self_iff {es : List (String × Rule)} :
    restrictNamed p es = es ↔ ∀ e ∈ es, e.2.restrict p = e.2 := by
  induction es with
  | nil => simp [restrictNamed]
  | cons e es ih => rw [restrictNamed, List.cons_eq_cons, ih, List.forall_mem_cons, Prod.mk.injEq, and_iff_right rfl]

theorem restrictNamed_filter_eq_self_iff {es : List (String × Rule)} {q : String × Rule → Bool} :
    restrictNamed p (es.filter q) = es ↔ ∀ e ∈ es, q e = true ∧ e.2.restrict p = e.2 := by
  by_cases hq : ∀ e ∈ es, q e = true
  · rw [List.filter_eq_self.2 hq, restrictNamed_eq_self_iff]
    exact forall₂_congr fun e he => (and_iff_right (hq e he)).symm
  · refine ⟨fun h => absurd ?_ hq, fun h => absurd (fun e he => (h e he).1) hq⟩
    -- all entries stay, since none is missing in the end
    have hlen := congrArg List.length h
    rw [restrictNamed_eq, List.length_map] at hlen
    exact List.length_filter_eq_length_iff.1 hlen

theorem map_restrictNamed_eq_self_iff {o : Option (List (String × Rule))} :
    o.map (restrictNamed p) = o ↔ ∀ r ∈ (o.getD []).map (·.2), r.restrict p = r := by
  cases o with
  | none => simp
  | some es => rw [Option.map_some, Option.some_inj, restrictNamed_eq_self_iff, Option.getD_some, List.forall_mem_map]

theorem map_restrictList_eq_self_iff {o : Option (List Rule)} :
    o.map (restrictList p) = o ↔ ∀ r ∈ o.getD [], p r = true ∧ r.restrict p = r := by
  cases o with
  | none => simp
  | some rs => rw [Option.map_some, Option.some_inj, restrictList_eq_self_iff, Option.getD_some]

/-- A rule stays as it is when no list in it or beneath it loses a pattern. -/
theorem restrict_eq_self_iff {r : Rule} :
    r.restrict p = r ↔ ∀ x ∈ r.visit false, ∀ c ∈ x.patternList, p c = true := by
  induction r with
  | node r ih =>
    have hstep : r.restrict p = r ↔
        (∀ c ∈ r.patternList, p c = true) ∧ ∀ c ∈ r.children, c.restrict p = c := by
      rcases r with ⟨head, patterns, repository, captures, begins, ends⟩
      rw [restrict_mk, Rule.mk.injEq, map_restrictList_eq_self_iff, map_restrictNamed_eq_self_iff,
        map_restrictNamed_eq_self_iff, map_restrictNamed_eq_self_iff]
      simp only [children, captured, patternList, Rule.captures, beginCaptures, endCaptures, Rule.patterns,
        List.map_append, List.forall_mem_append, forall_and]
      tauto
    rw [hstep]
    constructor
    · rintro ⟨hr, hc⟩ x hx
      rcases mem_visit.1 hx with rfl | ⟨c, hmem, hx⟩
      · exact hr
      · exact (ih c hmem).1 (hc c hmem) x hx
    · intro h
      refine ⟨h r (self_mem_visit r), fun c hmem => (ih c hmem).2 fun x hx => ?_⟩
      exact h x (mem_visit_of_child hmem hx)

theorem restrict_eq_self_iff_rejected {r : Rule} : r.restrict S.rule = r ↔ r.trail.flatMap (rejected S) = [] := by
  rw [restrict_eq_self_iff, List.flatMap_eq_nil_iff]
  simp only [mem_trail, rejected, List.filter_eq_nil_iff, Bool.not_eq_true', Bool.not_eq_false]

end Whole

end Rule

namespace Grammar

/-- The rules of the entries that stay. -/
def kept (S : Sieve) (g : Grammar) : List Rule := (g.entries.filter fun e => S.entry e.1).map (·.2)

/-- The patterns that are taken out of the list of root patterns. -/
def rejected (S : Sieve) (g : Grammar) : List Rule := g.patterns.filter fun r => !S.rule r

/-- The rules that are left, beneath the entries and beneath the root patterns. -/
def standing (S : Sieve) (g : Grammar) : List Rule := (g.kept S ++ g.patterns.filter S.rule).flatMap (Rule.standing S)

/-- The patterns taken out of the lists that are left. -/
def takenOut (S : Sieve) (g : Grammar) : List Rule := g.rejected S ++ (g.standing S).flatMap (Rule.rejected S)

/-- The patterns taken out on the way, when all entries that stay and all root patterns are passed. -/
def removals (S : Sieve) (g : Grammar) : List Rule :=
  g.rejected S ++ (g.kept S ++ g.patterns).flatMap fun r => r.trail.flatMap (Rule.rejected S)

/-- By how much the lists of patterns that are left get shorter. -/
def shrinkage (S : Sieve) (g : Grammar) : Nat :=
  (g.patterns.length - (g.restrict S.rule S.entry).patterns.length) +
    ((g.standing S).map fun r => r.patternList.length - (r.restrict S.rule).patternList.length).sum

/-- By how many entries the repository gets smaller. -/
def entryLoss (S : Sieve) (g : Grammar) : Nat := g.entries.length - (g.restrict S.rule S.entry).entries.length

variable {S : Sieve} {g : Grammar}

theorem length_rejected : (g.rejected S).length = g.patterns.length - (g.patterns.filter S.rule).length := by
  rw [rejected, List.length_eq_length_filter_add S.rule (l := g.patterns), Nat.add_sub_cancel_left]

theorem length_takenOut : (g.takenOut S).length = g.shrinkage S := by
  have hroot : (g.rejected S).length = g.patterns.length - (g.restrict S.rule S.entry).patterns.length := by
    rw [length_rejected, patterns_restrict, List.length_map]
  have hrule : ∀ r : Rule, (r.rejected S).length = r.patternList.length - (r.restrict S.rule).patternList.length := by
    intro r
    rw [Rule.patternList_restrict, List.length_map]
    exact r.cut_eq.symm
  rw [takenOut, shrinkage, List.length_append, List.length_flatMap, hroot]
  simp only [hrule]

/-- What is taken out on the way are the patterns taken out of the lists that are left, and all nested in them. -/
theorem removals_perm : (g.removals S).Perm (g.takenOut S ++ (g.takenOut S).flatMap Rule.nested) := by
  have hpassed := Rule.rejected_trails_perm (S := S) (g.kept S) g.patterns fun c _ => c.rejected_trail_perm
  have hlost : ((g.standing S).flatMap (Rule.lost S)).Perm ((g.standing S).flatMap (Rule.rejected S) ++
      ((g.standing S).flatMap (Rule.rejected S)).flatMap Rule.nested) := by
    rw [List.flatMap_assoc]
    exact (List.flatMap_append_perm _ _ _).symm
  have hnested : (g.takenOut S).flatMap Rule.nested = (g.rejected S).flatMap Rule.nested ++
      ((g.standing S).flatMap (Rule.rejected S)).flatMap Rule.nested := List.flatMap_append
  rw [hnested, removals, takenOut, List.append_assoc]
  refine List.Perm.append_left _ ((hpassed.trans (hlost.append_right _)).trans ?_)
  rw [List.append_assoc]
  exact List.perm_append_comm.append_left _

theorem restrict_eq_self_iff {p : Rule → Bool} {left : String → Bool} : g.restrict p left = g ↔
    (∀ r ∈ g.patterns, p r = true ∧ r.restrict p = r) ∧ ∀ e ∈ g.entries, left e.1 = true ∧ e.2.restrict p = e.2 := by
  rcases g with ⟨scope, types, first, head, patterns, entries, captures, begins, ends⟩
  have hentries : (entries.map fun es => Rule.restrictNamed p (es.filter fun e => left e.1)) = entries ↔
      ∀ e ∈ entries.getD [], left e.1 = true ∧ e.2.restrict p = e.2 := by
    cases entries with
    | none => simp
    | some es => rw [Option.map_some, Option.some_inj, Rule.restrictNamed_filter_eq_self_iff, Option.getD_some]
  rw [Grammar.patterns, Grammar.entries, Rule.patterns, Rule.repository, ← Rule.map_restrictList_eq_self_iff, ← hentries]
  simp [restrict]

/-- A grammar stays as it is when nothing is taken out on the way and all entries stay. -/
theorem sifted_eq_self_iff : g.restrict S.rule S.entry = g ↔
    g.removals S = [] ∧ ∀ e ∈ g.entries, S.entry e.1 = true := by
  have hrejected : g.rejected S = [] ↔ ∀ r ∈ g.patterns, S.rule r = true := by
    simp [rejected, List.filter_eq_nil_iff]
  have hkept : ∀ hall : ∀ e ∈ g.entries, S.entry e.1 = true, g.kept S = g.entries.map (·.2) := fun hall =>
    congrArg (List.map _) (List.filter_eq_self.2 hall)
  have hpassed : ((g.kept S ++ g.patterns).flatMap fun r => r.trail.flatMap (Rule.rejected S)) = [] ↔
      ∀ r ∈ g.kept S ++ g.patterns, r.restrict S.rule = r := by
    rw [List.flatMap_eq_nil_iff]
    exact forall₂_congr fun r _ => Rule.restrict_eq_self_iff_rejected.symm
  rw [restrict_eq_self_iff, removals, List.append_eq_nil_iff, hrejected, hpassed]
  simp only [List.forall_mem_append, forall_and]
  constructor
  · rintro ⟨⟨hp, hrestrict⟩, hall, hentries⟩
    rw [hkept hall, List.forall_mem_map]
    exact ⟨⟨hp, hentries, hrestrict⟩, hall⟩
  · rintro ⟨⟨hp, hentries, hrestrict⟩, hall⟩
    rw [hkept hall, List.forall_mem_map] at hentries
    exact ⟨⟨hp, hrestrict⟩, hall, hentries⟩

/-- So it does when nothing is counted. -/
theorem sifted_eq_self_iff_counts :
    g.restrict S.rule S.entry = g ↔ (g.removals S).length = 0 ∧ g.entryLoss S = 0 := by
  have hentries : g.entryLoss S = 0 ↔ ∀ e ∈ g.entries, S.entry e.1 = true := by
    have hle := List.length_filter_le (fun e => S.entry e.1) g.entries
    rw [entryLoss, entries_restrict, List.length_map, ← List.length_filter_eq_length_iff]
    omega
  rw [sifted_eq_self_iff, List.length_eq_zero_iff, hentries]

theorem restrict_all : g.restrict Sieve.all.rule Sieve.all.entry = g := by
  have hrule : ∀ r : Rule, r.restrict Sieve.all.rule = r := fun r => Rule.restrict_eq_self_iff.2 fun _ _ _ _ => rfl
  exact restrict_eq_self_iff.2 ⟨fun r _ => ⟨rfl, hrule r⟩, fun e _ => ⟨rfl, hrule e.2⟩⟩

theorem removals_all : g.removals Sieve.all = [] := (sifted_eq_self_iff.1 restrict_all).1

theorem entryLoss_all : g.entryLoss Sieve.all = 0 := (sifted_eq_self_iff_counts.1 restrict_all).2

end Grammar

/-! ## The sieve of a walk -/

/-- The walk leaves what the sieve leaves, and counts what is taken out on the way. -/
structure PrunedGrammar.Sifted (S : Sieve) (g : Grammar) (pruned : PrunedGrammar) : Prop where
  grammar : pruned.grammar = g.restrict S.rule S.entry
  /-- Without root patterns nothing is taken out. -/
  whole : g.root.patterns = none → pruned.grammar = g
  patterns : pruned.removedPatterns = (g.removals S).length
  entries : pruned.removedEntries = g.entryLoss S

/-- What is seen to be live stays, and the entries that are found live. -/
def Verdicts.sieve (V : Verdicts) (g : Grammar) : Sieve where
  rule := V.sees (g.liveNames V)
  entry := (g.liveNames V).contains
  upward _ _ hc h := Rule.anyHead_of_child hc h

/-- Draining counts what the rules of the entries drained lose. -/
theorem PruneWalk.removed_flush (V : Verdicts) (live : List String) (entries : List (String × Rule)) (n : Nat)
    (w : PruneWalk) : (flush V live entries n w).2.removed =
      w.removed + (V.effect live ((flush V live entries n w).1.flatMap (entryTrail entries))).removed := by
  induction n generalizing w with
  | zero => rfl
  | succ n ih =>
    rw [flush]
    cases w.pending with
    | nil => rfl
    | cons name pending =>
      dsimp only
      rw [ih, removed_after, List.flatMap_cons, V.effect_append, Effect.seq, Nat.add_assoc]

namespace Grammar
variable {V : Verdicts} {g : Grammar}

/-- Each entry that stays is drained once. -/
theorem drained_perm (hk : (Assoc.keys g.entries).Nodup) :
    ((g.drained V).1.flatMap (PruneWalk.entryTrail g.entries)).Perm ((g.kept (V.sieve g)).flatMap Rule.trail) := by
  have hkeys : (g.entries.filter fun e => (g.liveNames V).contains e.1).map (·.1) =
      (Assoc.keys g.entries).filter (g.liveNames V).contains := by
    rw [Assoc.keys, List.filter_map]
    rfl
  have hnames : (g.drained V).1.Perm ((g.entries.filter fun e => (g.liveNames V).contains e.1).map (·.1)) := by
    rw [hkeys]
    refine (List.perm_ext_iff_of_nodup draining_end.1 (hk.filter _)).2 fun n => ?_
    rw [mem_drained, mem_marked, List.mem_filter, List.contains_iff_mem]
    exact (and_iff_right_of_imp (mem_keys_of_mem_liveNames n)).symm
  have htrails : ((g.entries.filter fun e => (g.liveNames V).contains e.1).map (·.1)).flatMap
      (PruneWalk.entryTrail g.entries) = (g.kept (V.sieve g)).flatMap Rule.trail := by
    rw [kept, List.flatMap_map, List.flatMap_map]
    refine List.flatMap_congr fun e he => ?_
    rw [PruneWalk.entryTrail, Assoc.get?_of_mem hk (List.mem_filter.1 he).1]
    rfl
  exact (hnames.flatMap_right _).trans (.of_eq htrails)

/-- The patterns counted on the way are those taken out. -/
theorem removed_effect (rs : List Rule) :
    (V.effect (g.liveNames V) rs).removed = (rs.flatMap (Rule.rejected (V.sieve g))).length := by
  rw [Verdicts.effect, List.length_flatMap]
  exact congrArg List.sum (List.map_congr_left fun r _ => Rule.cut_eq (S := V.sieve g) r)

theorem removed_drained (hk : (Assoc.keys g.entries).Nodup) : (g.drained V).2.removed =
    ((g.kept (V.sieve g) ++ g.patterns).flatMap fun r => r.trail.flatMap (Rule.rejected (V.sieve g))).length := by
  have hentries := ((drained_perm (V := V) hk).flatMap_right (Rule.rejected (V.sieve g))).length_eq
  have hstart : ({} : PruneWalk).removed = 0 := rfl
  rw [drained, PruneWalk.removed_flush, PruneWalk.removed_after, removed_effect, removed_effect, ← drained, hentries,
    hstart, Nat.zero_add, Nat.add_comm, ← List.length_append, List.flatMap_append, List.flatMap_assoc, List.flatMap_assoc]

/-- A walk through a grammar sifts it. -/
theorem sifted_inquiry (hk : (Assoc.keys g.entries).Nodup) :
    ∃ S, PrunedGrammar.Sifted S g ((g.inquiry V.keep V.loaded).value V.on) := by
  cases hg : g.root.patterns with
  | none =>
    rw [inquiry_none hg]
    exact ⟨.all, restrict_all.symm, fun _ => rfl, by rw [removals_all]; rfl, entryLoss_all.symm⟩
  | some ps =>
    have hg : g.root.patterns.isSome := by rw [hg]; rfl
    have hroot : g.patterns.length - (g.patterns.filter (V.sees (g.liveNames V))).length =
        (g.rejected (V.sieve g)).length := (length_rejected (S := V.sieve g)).symm
    have hentries : g.entryLoss (V.sieve g) =
        g.entries.length - (g.entries.filter fun e => (g.liveNames V).contains e.1).length := by
      rw [entryLoss, entries_restrict, List.length_map]
      rfl
    rw [(inquiry_spec hg hk).1]
    refine ⟨V.sieve g, rfl, fun hnone => ?_, ?_, ?_⟩
    · rw [hnone] at hg
      cases hg
    · dsimp only
      rw [removed_drained hk, hroot, removals, List.length_append, Nat.add_comm]
    · dsimp only
      rw [hentries]

end Grammar

end ScopeActions
