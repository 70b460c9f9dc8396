import ScopeActions.Proofs.Grammar.Live
/-!
# The questions of a walk

The search for live rules stops asking at the first thing that makes a rule live, so what it asks depends on the
answers. The walk as a whole does not: it asks about every loaded grammar that a rule includes to which the root
patterns lead, live or not, and about no other (`Grammar.mem_asked_inquiry`). Rules that are passed ask by
themselves; the others stand in entries that are not live, and the last round has looked all through these.
-/

namespace ScopeActions

variable {V : Verdicts} {entries : List (String × Rule)} {known names : List String} {t : String}

namespace Inquiry

/-- The search finds nothing in a rule that is not live, so it asks about all that the rule mentions. -/
theorem mem_asked_live {r : Rule} (hr : V.sees known r = false) (ht : r.Mentions t) (hl : V.loaded.contains t = true) :
    t ∈ (r.live V.inquired known).asked V.on := by
  induction r with
  | node r ih =>
    rw [V.sees_eq, Bool.or_eq_false_iff, Bool.or_eq_false_iff] at hr
    obtain ⟨hgives, hcaptured, hpatterns⟩ := hr
    have lists : ∀ rs : List Rule, (∀ c ∈ rs, c ∈ r.children) → rs.any (V.sees known) = false →
        (∃ c ∈ rs, c.Mentions t) → t ∈ (Rule.liveList V.inquired known rs).asked V.on := by
      intro rs hrs hany hc
      induction rs with
      | nil =>
        obtain ⟨c, hc, -⟩ := hc
        cases hc
      | cons d rs ih' =>
        rw [List.any_cons, Bool.or_eq_false_iff] at hany
        rw [Rule.liveList, asked_orM, value_live, hany.1, List.mem_append]
        obtain ⟨c, hc, hm⟩ := hc
        rcases List.mem_cons.1 hc with rfl | hc
        · exact .inl (ih c (hrs c List.mem_cons_self) hany.1 hm)
        · exact .inr (ih' (fun e he => hrs e (List.mem_cons_of_mem d he)) hany.2 ⟨c, hc, hm⟩)
    have hlabels : V.keep.containsAny r.labels = false := by
      rw [RuleHead.gives, Bool.or_eq_false_iff] at hgives
      exact hgives.1
    have valueLists : ∀ rs : List Rule, rs.any (V.sees known) = false →
        (Rule.liveList V.inquired known rs).value V.on = false := by
      intro rs hany
      simpa only [value_liveList, value_live] using hany
    have hkeep : V.inquired.keep = V.keep := rfl
    rw [Rule.live_eq]
    simp only [asked_orM, value_pure, asked_pure, hkeep, hlabels, valueLists _ hcaptured, valueLists _ hpatterns,
      Bool.false_eq_true, if_false, List.nil_append, List.mem_append]
    obtain ⟨x, hx, hi⟩ := ht
    rcases Rule.mem_visit.1 hx with rfl | ⟨c, hc, hx⟩
    · refine .inr (.inr ?_)
      have hparse : x.head.inclusion.map Inclusion.parse = some (.grammar t) := hi
      rw [asked_inclusionLive, hparse]
      simp only [hl, if_true, List.mem_singleton]
    · have hm : c.Mentions t := ⟨x, hx, hi⟩
      rcases Rule.mem_children.1 hc with hc | hc
      · exact .inl (lists _ (fun c hc => Rule.mem_children.2 (.inl hc)) hcaptured ⟨c, hc, hm⟩)
      · exact .inr (.inl (lists _ (fun c hc => Rule.mem_children.2 (.inr hc)) hpatterns ⟨c, hc, hm⟩))

end Inquiry

namespace Liveness

/-- A round that finds nothing has looked all through the entries that are not live. -/
theorem mem_asked_round (h : (round V.inquired entries known names).value V.on = known) {n : String} {e : Rule}
    (hn : n ∈ names) (hk : n ∉ known) (he : Assoc.get? entries n = some e) (ht : e.Mentions t)
    (hl : V.loaded.contains t = true) : t ∈ (round V.inquired entries known names).asked V.on := by
  induction names with
  | nil => cases hn
  | cons name names ih =>
    obtain ⟨hvalue, hasked⟩ := round_cons V entries known name names
    rw [hvalue] at h
    have hlook := look_eq_of_round_eq h
    rw [hlook] at h hasked
    rw [hasked, List.mem_append]
    rcases List.mem_cons.1 hn with rfl | hn
    · refine .inl ?_
      have hsees : V.sees known e = false := by
        rw [← Bool.not_eq_true]
        intro hs
        exact hk (hlook ▸ mem_look he hs)
      have hcontains : known.contains n = false := by simpa using hk
      rw [lookAsked, hcontains, he]
      exact Inquiry.mem_asked_live hsees ht hl
    · exact .inr (ih h hn)

/-- The last of the rounds finds nothing, and asks what the rounds ask. -/
theorem Known.exists_last (n : Nat) (h : Known V entries names known) (hn : names.length + 1 ≤ n + known.length) :
    let live := (Liveness.rounds V.inquired entries names n known).value V.on
    (Liveness.round V.inquired entries live names).value V.on = live ∧
      ∀ t ∈ (Liveness.round V.inquired entries live names).asked V.on,
        t ∈ (Liveness.rounds V.inquired entries names n known).asked V.on := by
  induction n generalizing known with
  | zero =>
    have := h.length_le
    omega
  | succ n ih =>
    have hround := h.round fun n (hn : n ∈ names) => hn
    have hgrow := prefix_round V entries known names
    rw [Liveness.rounds, Inquiry.value_bind, Inquiry.asked_bind]
    split
    · next hlen =>
      have heq : (Liveness.round V.inquired entries known names).value V.on = known :=
        (hgrow.eq_of_length hlen.symm).symm
      rw [Inquiry.value_pure, heq]
      exact ⟨heq, fun t ht => List.mem_append_left _ ht⟩
    · next hlen =>
      obtain ⟨hfix, hasked⟩ := ih hround (by have := hgrow.length_le; omega)
      exact ⟨hfix, fun t ht => List.mem_append_right _ (hasked t ht)⟩

/-- The rounds ask about all that the entries mention that are not live. -/
theorem mem_asked_liveEntries {n : String} {e : Rule} (hn : n ∈ names)
    (hk : n ∉ (liveEntries V.inquired entries names).value V.on) (he : Assoc.get? entries n = some e) (ht : e.Mentions t)
    (hl : V.loaded.contains t = true) : t ∈ (liveEntries V.inquired entries names).asked V.on := by
  have hstart : Known V entries names [] := ⟨List.nodup_nil, by simp, by simp⟩
  obtain ⟨hfix, hasked⟩ := hstart.exists_last (names.length + 1) (by simp)
  exact hasked t (mem_asked_round hfix hn hk he ht hl)

end Liveness

namespace Grammar
variable {g : Grammar}

theorem Leads.isSome_patterns {x : Rule} (h : g.Leads x) : g.root.patterns.isSome := by
  induction h with
  | @root r hr =>
    rw [patterns] at hr
    cases hg : g.root.patterns with
    | none => simp [hg] at hr
    | some _ => rfl
  | child _ _ ih => exact ih
  | entry _ _ _ ih => exact ih

/-- Passing a rule asks about the loaded grammar that it includes. -/
theorem mem_foreign {rs : List Rule} {x : Rule} (hx : x ∈ rs) (hi : x.inclusion? = some (.grammar t))
    (hl : V.loaded.contains t = true) : t ∈ rs.filterMap (Rule.foreign? V.loaded) := by
  refine List.mem_filterMap.2 ⟨x, hx, ?_⟩
  rw [Rule.foreign?, hi]
  simp only [hl, if_true]

/-- Whatever the answers are, a walk asks about the loaded grammars that are included by rules to which the root
patterns lead. -/
theorem mem_asked_inquiry (hk : (Assoc.keys g.entries).Nodup) : t ∈ (g.inquiry V.keep V.loaded).asked V.on ↔
    V.loaded.contains t = true ∧ ∃ r, g.Leads r ∧ r.inclusion? = some (.grammar t) := by
  refine ⟨leads_of_asked hk, ?_⟩
  rintro ⟨hl, x, hx, hi⟩
  rw [(inquiry_spec hx.isSome_patterns hk).2, List.mem_append, List.mem_append]
  rcases hx.beneath with ⟨r, hr, hx⟩ | ⟨n, e, hn, he, hx⟩
  · exact .inr (.inl (mem_foreign (List.mem_flatMap.2 ⟨r, hr, Rule.mem_trail.2 hx⟩) hi hl))
  · by_cases hlive : n ∈ g.liveNames V
    · have htrail : x ∈ PruneWalk.entryTrail g.entries n := by
        rw [PruneWalk.entryTrail, he]
        exact Rule.mem_trail.2 hx
      have hdrained : n ∈ (g.drained V).1 := mem_drained.2 (mem_marked.2 hlive)
      exact .inr (.inr (mem_foreign (List.mem_flatMap.2 ⟨n, hdrained, htrail⟩) hi hl))
    · exact .inl (Liveness.mem_asked_liveEntries (Liveness.mem_reachable.2 hn) hlive he ⟨x, hx, hi⟩ hl)

end Grammar

end ScopeActions
