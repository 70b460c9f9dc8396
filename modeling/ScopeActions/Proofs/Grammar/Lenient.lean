import ScopeActions.Proofs.Grammar.Live
/-!
# A walk after a more lenient one

A walk may follow one that went by more scopes to keep and kept more grammars. All that is live for the second is
live for the first, so it finds in what is left of the grammar just what it would have found in the whole, and
leaves the same (`Grammar.Stricter.left_left`).
-/

namespace ScopeActions.Grammar

variable {V V' W : Verdicts} {g : Grammar} {r : Rule}

/-! ## Rules to which what is left leads -/

/-- On the way to a live rule all rules are live, so the whole way is left. -/
theorem Leads.left (hr : g.Leads r) (h : r.LiveIn V.keep V.foreign g.entries) :
    (g.left V).Leads (r.restrict (V.sees (g.liveNames V))) := by
  induction hr with
  | root hr =>
    exact .root (restrict_mem_patterns_left hr h)
  | child hr hc ih =>
    exact (ih (.child hc h)).child (Rule.restrict_mem_children hc ((sees_iff_liveIn (hr.child hc)).2 h))
  | @entry r e n hr hi he ih =>
    have hleft := get?_entries_left_of_live (hr.entry_live hi he h) he
    exact (ih (.entry hi he h)).entry ((Rule.inclusion?_restrict r).trans hi) hleft

/-- A rule to which what is left leads is what was left of one to which the grammar leads. -/
theorem Leads.exists_of_left {x : Rule} (hx : (g.left V).Leads x) :
    ∃ r, g.Leads r ∧ x = r.restrict (V.sees (g.liveNames V)) := by
  induction hx with
  | root hx =>
    obtain ⟨r, hr, -, rfl⟩ := mem_patterns_left hx
    exact ⟨r, hr, rfl⟩
  | child _ hc ih =>
    obtain ⟨r, hr, rfl⟩ := ih
    obtain ⟨d, hd, rfl⟩ := Rule.exists_of_mem_children_restrict hc
    exact ⟨d, hr.child hd, rfl⟩
  | entry _ hi he ih =>
    obtain ⟨r, hr, rfl⟩ := ih
    obtain ⟨e, he', rfl⟩ := exists_of_get?_entries_left he
    exact ⟨e, hr.entry ((Rule.inclusion?_restrict r).symm.trans hi) he', rfl⟩

/-! ## The second walk -/

/-- A first walk goes by `V'` and a second by `W`. The first is more lenient than a walk by `V`, and about all that
is asked in what it leaves the second is at one with `V`. -/
structure Stricter (V V' W : Verdicts) (g : Grammar) : Prop where
  keep : ∀ s ∈ V.keep, s ∈ V'.keep
  foreign : ∀ r t, g.Leads r → r.inclusion? = some (.grammar t) → V.foreign t = true → V'.foreign t = true
  keep_eq : W.keep = V.keep
  foreign_eq : ∀ r t, (g.left V').Leads r → r.inclusion? = some (.grammar t) → W.foreign t = V.foreign t

namespace Stricter

theorem mono (h : Stricter V V' W g) (hr : g.Leads r) (hl : r.LiveIn V.keep V.foreign g.entries) :
    r.LiveIn V'.keep V'.foreign g.entries := by
  induction hl with
  | own hl =>
    obtain ⟨s, hs, hk⟩ := List.any_eq_true.1 hl
    have hk' : s ∈ V'.keep := h.keep s (by simpa using hk)
    exact .own (List.any_eq_true.2 ⟨s, hs, by simpa using hk'⟩)
  | child hc _ ih => exact .child hc (ih (hr.child hc))
  | entry hi he _ ih => exact .entry hi he (ih (hr.entry hi he))
  | grammar hi ht => exact .grammar hi (h.foreign _ _ hr hi ht)

/-- The second walk finds no more in what is left than there was. -/
theorem of_left (h : Stricter V V' W g) {x : Rule} (hx : x.LiveIn W.keep W.foreign (g.left V').entries)
    (hleads : (g.left V').Leads x) (hr : x = r.restrict (V'.sees (g.liveNames V'))) :
    r.LiveIn V.keep V.foreign g.entries := by
  induction hx generalizing r with
  | own hl =>
    rw [hr, Rule.labels_restrict, h.keep_eq] at hl
    exact .own hl
  | child hc _ ih =>
    obtain ⟨d, hd, hdc⟩ := Rule.exists_of_mem_children_restrict (hr ▸ hc)
    exact .child hd (ih (hleads.child hc) hdc.symm)
  | entry hi he _ ih =>
    have hleads' := hleads.entry hi he
    obtain ⟨e, he, heq⟩ := exists_of_get?_entries_left he
    rw [hr, Rule.inclusion?_restrict] at hi
    exact .entry hi he (ih hleads' heq)
  | grammar hi ht =>
    rw [h.foreign_eq _ _ hleads hi] at ht
    rw [hr, Rule.inclusion?_restrict] at hi
    exact .grammar hi ht

/-- What is live for the strict walk is left by the lenient one, with all that makes it live. -/
theorem live_left (h : Stricter V V' W g) (hr : g.Leads r) (hl : r.LiveIn V.keep V.foreign g.entries) :
    (r.restrict (V'.sees (g.liveNames V'))).LiveIn W.keep W.foreign (g.left V').entries := by
  induction hl with
  | own hl => exact .own (by rwa [Rule.labels_restrict, h.keep_eq])
  | @child r c hc hl ih =>
    have hleads := hr.child hc
    exact .child (Rule.restrict_mem_children hc ((sees_iff_liveIn hleads).2 (h.mono hleads hl))) (ih hleads)
  | @entry r e n hi he hl ih =>
    have hleads := hr.entry hi he
    have hleft := get?_entries_left_of_live (hr.entry_live hi he (h.mono hleads hl)) he
    exact .entry (n := n) ((Rule.inclusion?_restrict r).trans hi) hleft (ih hleads)
  | @grammar r t hi ht =>
    have hi' : (r.restrict (V'.sees (g.liveNames V'))).inclusion? = some (.grammar t) :=
      (Rule.inclusion?_restrict r).trans hi
    have hleads : (g.left V').Leads (r.restrict (V'.sees (g.liveNames V'))) :=
      hr.left (h.mono hr (.grammar hi ht))
    exact .grammar hi' ((h.foreign_eq _ _ hleads hi').trans ht)

/-- The strict walk takes out of the whole grammar what the lenient one takes out and what the second takes out of
what that leaves. -/
theorem sees_eq (h : Stricter V V' W g) (hr : g.Leads r) : V.sees (g.liveNames V) r =
    (V'.sees (g.liveNames V') r && W.sees ((g.left V').liveNames W) (r.restrict (V'.sees (g.liveNames V')))) := by
  rw [Bool.eq_iff_iff, Bool.and_eq_true, sees_iff_liveIn hr, sees_iff_liveIn hr]
  constructor
  · intro hl
    have hl' := h.mono hr hl
    exact ⟨hl', (sees_iff_liveIn (hr.left hl')).2 (h.live_left hr hl)⟩
  · rintro ⟨hl', hs⟩
    have hleads := hr.left hl'
    exact h.of_left ((sees_iff_liveIn hleads).1 hs) hleads rfl

theorem liveNames_iff (h : Stricter V V' W g) {n : String} :
    n ∈ g.liveNames V ↔ n ∈ g.liveNames V' ∧ n ∈ (g.left V').liveNames W := by
  constructor
  · intro hn
    obtain ⟨hreach, e, he, hl⟩ := mem_liveNames.1 hn
    obtain ⟨-, r, hr, hi⟩ := reach_iff.1 hreach
    have hleads := leads_of_reach hreach he
    have hn' : n ∈ g.liveNames V' := mem_liveNames.2 ⟨hreach, e, he, h.mono hleads hl⟩
    have he' := get?_entries_left_of_live hn' he
    have hr' := hr.left (h.mono hr (.entry hi he hl))
    exact ⟨hn', hr'.entry_live ((Rule.inclusion?_restrict r).trans hi) he' (h.live_left hleads hl)⟩
  · rintro ⟨hn', hn⟩
    obtain ⟨hreach, e, he, -⟩ := mem_liveNames.1 hn'
    obtain ⟨hreach', e', he', hl⟩ := mem_liveNames.1 hn
    have heq : e' = e.restrict (V'.sees (g.liveNames V')) :=
      Option.some.inj (he'.symm.trans (get?_entries_left_of_live hn' he))
    exact mem_liveNames.2 ⟨hreach, e, he, h.of_left hl (leads_of_reach hreach' he') heq⟩

/-- The second walk leaves what the strict one leaves of the whole grammar. -/
theorem left_left (h : Stricter V V' W g) (hk : (Assoc.keys g.entries).Nodup) : (g.left V').left W = g.left V := by
  refine restrict_comp (fun r hr x hx => h.sees_eq ((Leads.root hr).of_mem_visit hx)) (fun b _ => ?_) fun b hb hl x hx => ?_
  · rw [Bool.eq_iff_iff, Bool.and_eq_true, List.contains_iff_mem, List.contains_iff_mem, List.contains_iff_mem]
    exact h.liveNames_iff
  · obtain ⟨hr, -⟩ := leads_of_mem_liveNames (List.contains_iff_mem.1 hl) (Assoc.get?_of_mem hk hb)
    exact h.sees_eq (hr.of_mem_visit hx)

theorem leaves_leaves (h : Stricter V V' W g) (hk : (Assoc.keys g.entries).Nodup) :
    (g.leaves V').leaves W = g.leaves V := by
  unfold leaves
  by_cases hg : g.root.patterns.isSome
  · have hleft : (g.left V').root.patterns.isSome := by rwa [left, isSome_patterns_restrict]
    rw [if_pos hg, if_pos hleft, if_pos hg, h.left_left hk]
  · rw [if_neg hg, if_neg hg, if_neg hg]

/-- The second walk keeps a root pattern when the strict one does. -/
theorem any_leaves (h : Stricter V V' W g) :
    (g.leaves V').patterns.any (W.sees ((g.leaves V').liveNames W)) = g.patterns.any (V.sees (g.liveNames V)) := by
  unfold leaves
  split
  · rw [left, patterns_restrict, ← left, List.any_map, List.any_filter, Bool.eq_iff_iff, List.any_eq_true, List.any_eq_true]
    exact exists_congr fun r => and_congr_right fun hr => by rw [h.sees_eq (.root hr), Function.comp_apply]
  · next hg => simp [patterns, Option.not_isSome_iff_eq_none.1 hg]

end Stricter

end ScopeActions.Grammar
