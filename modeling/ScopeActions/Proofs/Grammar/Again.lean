import ScopeActions.Proofs.Grammar.Distinct
import ScopeActions.Proofs.Grammar.Rewalk
/-!
# Pruning again

A second pass over what a pass has left changes nothing and keeps the same grammars, in the same order, also where
grammars include each other in a circle (`LoadedGrammars.prune_prune`). It follows the first pass: a walk asks what
the walk before asked, but for grammars that were not kept, and of these nothing is left to ask about. So the walks
through kept grammars begin and end in the same order, and wherever one goes on, the same one goes on.
-/

namespace ScopeActions

namespace PruneSummary

@[simp] theorem kept_diagnosed (r : PruneSummary) (d : Diagnostic) : (r.diagnosed d).kept = r.kept := by
  unfold diagnosed
  split <;> rfl

@[simp] theorem isNoop_diagnosed (r : PruneSummary) (d : Diagnostic) : (r.diagnosed d).isNoop = r.isNoop := by
  unfold diagnosed isNoop
  split <;> rfl

end PruneSummary

namespace PrunePass
variable {keep : ScopeSet} {e p p' q : PrunePass} {s : String} {g : Grammar} {pruned : PrunedGrammar}

/-! ## The outcome of the first pass -/

/-- What is not kept is emptied. -/
structure Emptying (keep : ScopeSet) (p : PrunePass) : Prop where
  dropped : ∀ s, p.report.verdict? s = some false → keep.contains s = false
  emptied : ∀ s g, p.report.verdict? s = some false → Assoc.get? p.grammars s = some g → g.Emptied

theorem Emptying.diagnosed (h : Emptying keep p) (d : Diagnostic) : Emptying keep (p.diagnosed d) where
  dropped s hs := h.dropped s (p.report.verdict?_diagnosed d s ▸ hs)
  emptied s g hs hg := h.emptied s g (p.report.verdict?_diagnosed d s ▸ hs) hg

theorem Emptying.finish (h : Emptying keep q) (hs : p.Fresh s g) (hq : Extends (p.enter s) q)
    (hg : pruned.patternsLeft = false → pruned.grammar.Emptied) :
    Emptying keep (q.finish s pruned (keep.contains s || pruned.patternsLeft)) := by
  constructor
  · intro t ht
    rw [verdict?_finish hq hs] at ht
    split at ht
    · next he => exact he ▸ (Bool.or_eq_false_iff.1 (Option.some.inj ht)).1
    · exact h.dropped t ht
  · intro t k ht hk
    rw [verdict?_finish hq hs] at ht
    rw [PrunePass.finish, Assoc.get?_put] at hk
    split at ht
    · next he =>
      rw [if_pos he.symm] at hk
      exact Option.some.inj hk ▸ hg (Bool.or_eq_false_iff.1 (Option.some.inj ht)).2
    · next he =>
      rw [if_neg (Ne.symm he)] at hk
      exact h.emptied t k ht hk

/-- Walks empty all that is dropped. -/
theorem invariant_emptying (keep : ScopeSet) : Invariant keep fun p => Distinct p ∧ Emptying keep p where
  diagnosed _ d h := ⟨h.1, h.2.diagnosed d⟩
  enter _ _ h := ⟨h.1, h.2.dropped, h.2.emptied⟩
  finish p q s g hs hq hp h := by
    obtain ⟨hd, hj⟩ := h
    refine ⟨(invariant_distinct keep).finish p q s g hs hq hp.1 hd, hj.finish hs hq fun hleft => ?_⟩
    exact Grammar.emptied_inquiry (V := verdicts keep p q) (hp.1 s g hs.loaded) hleft

/-- The pass at the end of a run that decides all grammars. -/
structure Outcome (keep : ScopeSet) (e : PrunePass) : Prop where
  sound : Sound e
  decided : ∀ s ∈ Assoc.keys e.grammars, (e.report.verdict? s).isSome
  emptying : Emptying keep e

/-- What one pass has decided, the other has decided alike. -/
structure Precedes (p e : PrunePass) : Prop where
  keys : Assoc.keys p.grammars = Assoc.keys e.grammars
  verdict : ∀ s b, p.report.verdict? s = some b → e.report.verdict? s = some b
  grammar : ∀ s, (p.report.verdict? s).isSome → Assoc.get? p.grammars s = Assoc.get? e.grammars s

theorem Precedes.refl (e : PrunePass) : Precedes e e := ⟨rfl, fun _ _ h => h, fun _ _ => rfl⟩

theorem Precedes.of_extends (h : Precedes q e) (hp : Sound p) (hq : Extends p q) : Precedes p e where
  keys := hq.keys.symm.trans h.keys
  verdict s b hs := h.verdict s b ((hq.verdict s (hp.visited s (Option.isSome_of_eq_some hs))).trans hs)
  grammar s hs := by
    have hvisited := hp.visited s hs
    rw [← hq.grammar s (.inl hvisited)]
    exact h.grammar s (by rwa [hq.verdict s hvisited])

/-- Before a grammar was finished, less was decided. -/
theorem Precedes.of_finish {b : Bool} (h : Precedes (q.finish s pruned b) e) (hs : p.Fresh s g)
    (hq : Extends (p.enter s) q) : Precedes q e := by
  have hne : ∀ t, (q.report.verdict? t).isSome → t ≠ s := by
    rintro t ht rfl
    rw [hs.undecided_of_extends hq] at ht
    cases ht
  constructor
  · exact (keys_finish (hq.keys ▸ hs.mem_keys)).symm.trans h.keys
  · intro t c ht
    apply h.verdict t c
    rw [verdict?_finish hq hs, if_neg (hne t (Option.isSome_of_eq_some ht)), ht]
  · intro t ht
    have hts := hne t ht
    rw [← h.grammar t (by rwa [verdict?_finish hq hs, if_neg hts]), PrunePass.finish, Assoc.get?_put, if_neg hts.symm]

/-- What is decided about a grammar when it is finished. -/
theorem Precedes.finished {b : Bool} (h : Precedes (q.finish s pruned b) e) (hs : p.Fresh s g)
    (hq : Extends (p.enter s) q) :
    e.report.verdict? s = some b ∧ Assoc.get? e.grammars s = some pruned.grammar := by
  have hv : (q.finish s pruned b).report.verdict? s = some b := by rw [verdict?_finish hq hs, if_pos rfl]
  refine ⟨h.verdict s b hv, ?_⟩
  rw [← h.grammar s (Option.isSome_of_eq_some hv), PrunePass.finish, Assoc.get?_put, if_pos rfl]

/-! ## The second pass follows the first -/

/-- A run in which all answers are that a grammar is not kept drops whatever it begins. -/
theorem Runs.dropped {α : Type} {x : Inquiry α} {a : α} (h : Runs keep x p a p') (hp : Sound p) (hd : Distinct p)
    (hx : ∀ t ∈ x.asked (p'.answer keep), p'.answer keep t = false) :
    p'.report.kept = p.report.kept ∧ ∀ t ∈ p'.visited, t ∉ p.visited → p'.report.verdict? t = some false := by
  induction h with
  | done a p => exact ⟨rfl, fun t h h' => absurd h h'⟩
  | report _ ih =>
    obtain ⟨hkept, hv⟩ := ih (hp.diagnosed _) hd hx
    exact ⟨hkept.trans (PruneSummary.kept_diagnosed _ _), hv⟩
  | known hs h ih =>
    refine ih hp hd fun t ht => hx t (List.mem_cons_of_mem _ ?_)
    rwa [h.answer_known hp hs]
  | @walk _ s g pruned k a p q p' hs h h' ih ih' =>
    have hp' := hp.enter hs
    obtain ⟨hq, hsq⟩ := h.extends hp'
    have hfinish : Sound (q.finish s pruned (keep.contains s || pruned.patternsLeft)) := hsq.finish hq hs
    obtain ⟨hext, -⟩ := h'.extends hfinish
    have hanswer : p'.answer keep s = (keep.contains s || pruned.patternsLeft) := h'.answer_finished hs hq hfinish
    -- the grammar itself is dropped, so by its walk nothing that this asks about is kept
    have hb : (keep.contains s || pruned.patternsLeft) = false := hanswer.symm.trans (hx s List.mem_cons_self)
    obtain ⟨hkept', hv'⟩ := ih' hfinish (hs.distinct_finish h hp hd _) fun t ht =>
      hx t (List.mem_cons_of_mem s (hanswer ▸ ht))
    obtain ⟨hkept, hv⟩ := ih hp' hd fun t ht => by
      have hleft := (Bool.or_eq_false_iff.1 hb).2
      rw [(h.value_eq hp').1] at hleft
      exact Grammar.eq_false_of_asked (V := verdicts keep p q) (hd s g hs.loaded) hleft ht
    have hkeptFinish : (q.finish s pruned (keep.contains s || pruned.patternsLeft)).report.kept = q.report.kept := by
      rw [hb]
      rfl
    refine ⟨hkept'.trans (hkeptFinish.trans hkept), fun t ht htp => ?_⟩
    by_cases htq : t ∈ q.visited
    · rw [hext.verdict t htq, verdict?_finish hq hs, hb]
      split
      · rfl
      · next hts => exact hv t htq (by simp [PrunePass.enter, htp, hts])
    · exact hv' t ht htq

/-- How far the second pass is when the first pass has come to `p` on its way to `e`. It has begun and decided the
same grammars of those that are kept in the end, and it may have dropped some of the others. -/
structure Follows (e p q : PrunePass) : Prop where
  sound : Sound q
  grammars : q.grammars = e.grammars
  isNoop : q.report.isNoop = true
  kept : q.report.kept = p.report.kept
  visited : ∀ s, e.report.verdict? s = some true → (s ∈ q.visited ↔ s ∈ p.visited)
  verdict : ∀ s, e.report.verdict? s = some true → q.report.verdict? s = p.report.verdict? s
  dropped : ∀ s ∈ q.visited, e.report.verdict? s = some false → q.report.verdict? s = some false

theorem Follows.diagnosed_left (h : Follows e p q) (d : Diagnostic) : Follows e (p.diagnosed d) q where
  sound := h.sound
  grammars := h.grammars
  isNoop := h.isNoop
  kept := h.kept.trans (PruneSummary.kept_diagnosed _ _).symm
  visited := h.visited
  verdict s hs := (h.verdict s hs).trans (PruneSummary.verdict?_diagnosed _ _ _).symm
  dropped := h.dropped

theorem Follows.diagnosed_right (h : Follows e p q) (d : Diagnostic) : Follows e p (q.diagnosed d) where
  sound := h.sound.diagnosed d
  grammars := h.grammars
  isNoop := (PruneSummary.isNoop_diagnosed _ _).trans h.isNoop
  kept := (PruneSummary.kept_diagnosed _ _).trans h.kept
  visited := h.visited
  verdict s hs := (PruneSummary.verdict?_diagnosed _ _ _).trans (h.verdict s hs)
  dropped s hs hv := (PruneSummary.verdict?_diagnosed _ _ _).trans (h.dropped s hs hv)

theorem Follows.enter (h : Follows e p q) {k : Grammar} (hq : q.Fresh s k) (hs : e.report.verdict? s = some true) :
    Follows e (p.enter s) (q.enter s) where
  sound := h.sound.enter hq
  grammars := h.grammars
  isNoop := h.isNoop
  kept := h.kept
  visited t ht := by simp [PrunePass.enter, h.visited t ht]
  verdict := h.verdict
  dropped t ht hv := by
    rcases List.mem_append.1 ht with ht | ht
    · exact h.dropped t ht hv
    · obtain rfl := List.mem_singleton.1 ht
      rw [hs] at hv
      cases hv

/-- Both passes finish a grammar that is kept. -/
theorem Follows.finish {p₁ q₁ : PrunePass} {k : Grammar} (h : Follows e p₁ q₁) (hs : p.Fresh s g)
    (hp : Extends (p.enter s) p₁) (hs' : q.Fresh s k) (hq : Extends (q.enter s) q₁)
    (hv : e.report.verdict? s = some true) (hg : Assoc.get? e.grammars s = some pruned.grammar) (left : Bool) :
    Follows e (p₁.finish s pruned true) (q₁.finish s { grammar := pruned.grammar, patternsLeft := left } true) where
  sound := h.sound.finish hq hs'
  grammars := by
    rw [PrunePass.finish, h.grammars]
    exact Assoc.put_of_get? hg
  isNoop := h.isNoop
  kept := congrArg (· ++ [s]) h.kept
  visited := h.visited
  verdict t ht := by
    rw [verdict?_finish hp hs, verdict?_finish hq hs', h.verdict t ht]
  dropped t ht hd := by
    rw [verdict?_finish hq hs']
    split
    · next he =>
      rw [he, hv] at hd
      cases hd
    · exact h.dropped t ht hd

/-- The second pass stays behind while the first drops grammars. -/
theorem Follows.of_dropped (h : Follows e p q) (hp : Sound p) (hp' : Sound p') (hext : Extends p p')
    (he : Precedes p' e) (hkept : p'.report.kept = p.report.kept)
    (hv : ∀ t ∈ p'.visited, t ∉ p.visited → p'.report.verdict? t = some false) : Follows e p' q := by
  have hvisited : ∀ s, e.report.verdict? s = some true → (s ∈ p'.visited ↔ s ∈ p.visited) := by
    intro s hs
    refine ⟨fun hs' => ?_, hext.visited s⟩
    by_contra hsp
    have := he.verdict s false (hv s hs' hsp)
    rw [hs] at this
    cases this
  refine ⟨h.sound, h.grammars, h.isNoop, h.kept.trans hkept.symm, fun s hs => ?_, fun s hs => ?_, h.dropped⟩
  · rw [h.visited s hs, hvisited s hs]
  · rw [h.verdict s hs]
    by_cases hsp : s ∈ p.visited
    · exact (hext.verdict s hsp).symm
    · rw [hp.verdict?_eq_none hsp, hp'.verdict?_eq_none fun h => hsp ((hvisited s hs).1 h)]

/-- An inquiry goes on after its first question. -/
theorem Runs.ask {α : Type} {k : Bool → Inquiry α} {a : α} {b : Bool} {q₁ q' : PrunePass}
    (h : Runs keep (.ask s .done) q b q₁) (hk : Runs keep (k b) q₁ a q') : Runs keep (.ask s k) q a q' := by
  cases h with
  | known hs h =>
    cases h
    exact .known hs hk
  | walk hs h h' =>
    cases h'
    exact .walk hs h hk

/-- The second pass answers about a grammar that is not kept. -/
theorem Follows.ask_dropped (h : Follows e p q) (ho : Outcome keep e) (hs : e.report.verdict? s = some false) :
    ∃ q₁, Follows e p q₁ ∧ Runs keep (.ask s .done) q false q₁ := by
  by_cases hsq : s ∈ q.visited
  · have hanswer : q.answer keep s = false := by rw [answer, h.dropped s hsq hs, Option.getD_some]
    exact ⟨q, h, .known (fun _ hf => hf.unvisited hsq) (hanswer ▸ .done _ q)⟩
  -- met for the first time, it is walked through at once, for it asks nothing
  · have hkeys : s ∈ Assoc.keys e.grammars := ho.sound.loaded s (ho.sound.visited s (Option.isSome_of_eq_some hs))
    obtain ⟨g, hg⟩ := Assoc.exists_of_mem_keys hkeys
    have hfresh : q.Fresh s g := ⟨h.sound.verdict?_eq_none hsq, hsq, by rw [h.grammars, hg]⟩
    have hrun : Runs keep (g.inquiry keep (Assoc.keys q.grammars)) (q.enter s) { grammar := g, patternsLeft := false }
        (q.enter s) := by
      rw [(ho.emptying.emptied s g hs hg).inquiry]
      exact .done _ _
    have hb : (keep.contains s || false) = false := by rw [ho.emptying.dropped s hs, Bool.or_false]
    have hne : ∀ t, e.report.verdict? t = some true → t ≠ s := by
      rintro t ht rfl
      rw [hs] at ht
      cases ht
    refine ⟨(q.enter s).finish s { grammar := g, patternsLeft := false } false, ?_, ?_⟩
    · constructor
      · exact (h.sound.enter hfresh).finish (.refl _) hfresh
      · exact (Assoc.put_of_get? hfresh.loaded).trans h.grammars
      · exact h.isNoop
      · exact h.kept
      · intro t ht
        rw [← h.visited t ht]
        simp [PrunePass.finish, PrunePass.enter, hne t ht]
      · intro t ht
        rw [verdict?_finish (.refl _) hfresh, if_neg (hne t ht)]
        exact h.verdict t ht
      · intro t ht hd
        rw [verdict?_finish (.refl _) hfresh]
        split
        · rfl
        · next hts => exact h.dropped t (by simpa [PrunePass.finish, PrunePass.enter, hts] using ht) hd
    · refine .walk hfresh hrun ?_
      rw [hb]
      exact .done _ _

/-- The second pass answers as the first, where that has the answer. -/
theorem Follows.ask_settled (h : Follows e p q) (ho : Outcome keep e) (hp : Sound p) (he : Precedes p e)
    (hs : ∀ g, ¬p.Fresh s g) :
    ∃ q₁, Follows e p q₁ ∧ Runs keep (.ask s .done) q (p.answer keep s) q₁ := by
  have hsettled := settled_of_not_fresh hp hs
  cases hv : e.report.verdict? s with
  | none =>
    -- it is not loaded, in either pass
    have hkeys : s ∉ Assoc.keys e.grammars := fun hk => by simpa [hv] using ho.decided s hk
    have hpnone : p.report.verdict? s = none := by
      cases hpv : p.report.verdict? s with
      | none => rfl
      | some b => simpa [hv] using he.verdict s b hpv
    have hqkeys : s ∉ Assoc.keys q.grammars := h.grammars ▸ hkeys
    have hanswer : q.answer keep s = p.answer keep s := by
      rw [answer, answer, hpnone, h.sound.verdict?_eq_none (h.sound.not_visited hqkeys)]
    exact ⟨q, h, .known (fun _ hf => hqkeys hf.mem_keys) (hanswer ▸ .done _ q)⟩
  | some b =>
    cases b with
    | true =>
      -- decided or in progress, it is so in both passes
      have hkeys : s ∈ Assoc.keys p.grammars :=
        he.keys ▸ ho.sound.loaded s (ho.sound.visited s (Option.isSome_of_eq_some hv))
      have hvisited := (h.visited s hv).2 (hsettled.resolve_right fun hn => hn hkeys)
      have hanswer : q.answer keep s = p.answer keep s := by rw [answer, answer, h.verdict s hv]
      exact ⟨q, h, .known (fun _ hf => hf.unvisited hvisited) (hanswer ▸ .done _ q)⟩
    | false =>
      -- also while its walk goes on, the answer is that it is not kept
      have hanswer : p.answer keep s = false := by
        unfold answer
        cases hpv : p.report.verdict? s with
        | none => exact ho.emptying.dropped s hv
        | some b => exact Option.some.inj ((he.verdict s b hpv).symm.trans hv)
      rw [hanswer]
      exact h.ask_dropped ho hv

/-- The second pass stays behind while the first walks through a grammar that is dropped. -/
theorem Follows.walk_dropped {p₁ : PrunePass} (h : Follows e p q) (hs : p.Fresh s g)
    (hwalk : Runs keep (g.inquiry keep (Assoc.keys p.grammars)) (p.enter s) pruned p₁) (hp : Sound p) (hd : Distinct p)
    (hb : (keep.contains s || pruned.patternsLeft) = false) (he : Precedes (p₁.finish s pruned false) e) :
    Follows e (p₁.finish s pruned false) q := by
  have hrun : Runs keep (.ask s .done) p false (p₁.finish s pruned false) := by
    refine .walk hs hwalk ?_
    rw [hb]
    exact .done _ _
  obtain ⟨hext, hsound⟩ := hrun.extends hp
  have hanswer : (p₁.finish s pruned false).answer keep s = false := answer_finish (hwalk.extends (hp.enter hs)).1 hs
  obtain ⟨hkept, hv⟩ := hrun.dropped hp hd fun t ht => by
    obtain rfl := List.mem_singleton.1 ht
    exact hanswer
  exact h.of_dropped hp hsound hext he hkept hv

/-- The second pass walks through what is left of a grammar that is kept, when it can follow the walk of the first. -/
theorem Follows.walk_kept {p₁ : PrunePass} (h : Follows e p q) (hs : p.Fresh s g)
    (hwalk : Runs keep (g.inquiry keep (Assoc.keys p.grammars)) (p.enter s) pruned p₁) (hp : Sound p) (hd : Distinct p)
    (hb : (keep.contains s || pruned.patternsLeft) = true) (he : Precedes (p₁.finish s pruned true) e)
    (hfollow : ∀ q, Follows e (p.enter s) q → ∀ y : Inquiry PrunedGrammar,
      Thins (p₁.answer keep) ((g.inquiry keep (Assoc.keys p.grammars)).asked (p₁.answer keep))
          (y.asked (p₁.answer keep)) →
        ∃ q', Runs keep y q (y.value (p₁.answer keep)) q' ∧ Follows e p₁ q') :
    ∃ q₁, Follows e (p₁.finish s pruned true) q₁ ∧ Runs keep (.ask s .done) q true q₁ := by
  obtain ⟨hp₁, hsound⟩ := hwalk.extends (hp.enter hs)
  obtain ⟨hv, hg⟩ := he.finished hs hp₁
  have hfresh : q.Fresh s pruned.grammar :=
    ⟨(h.verdict s hv).trans hs.undecided, fun hq => hs.unvisited ((h.visited s hv).1 hq), by rw [h.grammars, hg]⟩
  have hkeys : Assoc.keys q.grammars = Assoc.keys p.grammars := by
    rw [h.grammars, ← he.keys, keys_finish (hp₁.keys ▸ hs.mem_keys)]
    exact hp₁.keys
  have hdg : g.Distinct := hd s g hs.loaded
  obtain ⟨hvalue, hthins⟩ := Grammar.inquiry_left (V := verdicts keep p p₁) hdg
  have hpruned : pruned = (g.inquiry keep (Assoc.keys p.grammars)).value (p₁.answer keep) :=
    (hwalk.value_eq (hp.enter hs)).1
  have hleaves : pruned.grammar = g.leaves (verdicts keep p p₁) :=
    hpruned ▸ (Grammar.inquiry_value (V := verdicts keep p p₁) hdg).1
  have hleft : pruned.patternsLeft =
      ((g.inquiry keep (Assoc.keys p.grammars)).value (p₁.answer keep)).patternsLeft := congrArg _ hpruned
  obtain ⟨q₂, hrun, hq₂⟩ := hfollow _ (h.enter hfresh hv) _ hthins
  have hagain : Runs keep (pruned.grammar.inquiry keep (Assoc.keys q.grammars)) (q.enter s)
      { grammar := pruned.grammar, patternsLeft := pruned.patternsLeft } q₂ := by
    rw [hkeys, hleaves, hleft]
    exact hvalue ▸ hrun
  have hext := (hagain.extends (h.sound.enter hfresh)).1
  refine ⟨_, hq₂.finish hs hp₁ hfresh hext hv hg pruned.patternsLeft, .walk hfresh hagain ?_⟩
  rw [hb]
  exact .done _ _

/-- An inquiry that asks no more ends after some reports. -/
theorem Follows.done {β : Type} (h : Follows e p q) (y : Inquiry β) {o : String → Bool} (hy : y.asked o = []) :
    ∃ q', Runs keep y q (y.value o) q' ∧ Follows e p q' := by
  induction y generalizing q with
  | done b => exact ⟨q, .done b q, h⟩
  | report d y ih =>
    obtain ⟨q', hrun, hq'⟩ := ih (h.diagnosed_right d) hy
    exact ⟨q', .report hrun, hq'⟩
  | ask t k _ => cases hy

/-- An inquiry that asks what another asks, but for what is not kept, either leaves out its next question or asks
it after some reports. -/
theorem Follows.next {β : Type} (h : Follows e p q) (keep : ScopeSet) (y : Inquiry β) {o : String → Bool} {l : List String}
    (hy : Thins o (s :: l) (y.asked o)) :
    (o s = false ∧ Thins o l (y.asked o)) ∨
      ∃ k q₀, Follows e p q₀ ∧ (k (o s)).value o = y.value o ∧ Thins o l ((k (o s)).asked o) ∧
        ∀ a q', Runs keep (.ask s k) q₀ a q' → Runs keep y q a q' := by
  induction y generalizing q with
  | done b =>
    cases hy with
    | drop hs hy => exact .inl ⟨hs, hy⟩
  | report d y ih =>
    rcases ih (h.diagnosed_right d) hy with hleft | ⟨k, q₀, hq₀, hv, ht, hrun⟩
    · exact .inl hleft
    · exact .inr ⟨k, q₀, hq₀, hv, ht, fun a q' hr => .report (hrun a q' hr)⟩
  | ask t k _ =>
    generalize hasked : (Inquiry.ask t k).asked o = l' at hy
    cases hy with
    | keep _ hy =>
      obtain ⟨rfl, rfl⟩ := List.cons.inj hasked
      exact .inr ⟨k, q, h, rfl, hy, fun a q' hr => hr⟩
    | drop hs hy => exact .inl ⟨hs, hasked ▸ hy⟩

/-- While the first pass carries out an inquiry, the second follows it with one that asks the same, but for what is
not kept. -/
theorem Follows.runs {α β : Type} {x : Inquiry α} {a : α} (h : Follows e p q) (ho : Outcome keep e)
    (hrun : Runs keep x p a p') (hp : Sound p) (hd : Distinct p) (he : Precedes p' e) (y : Inquiry β)
    (hy : Thins (p'.answer keep) (x.asked (p'.answer keep)) (y.asked (p'.answer keep))) :
    ∃ q', Runs keep y q (y.value (p'.answer keep)) q' ∧ Follows e p' q' := by
  induction hrun generalizing β q with
  | done a p =>
    refine h.done y ?_
    generalize y.asked (p.answer keep) = l at hy ⊢
    cases hy
    rfl
  | @report _ d _ _ _ _ _ ih => exact ih (h.diagnosed_left d) (hp.diagnosed d) hd he y hy
  | @known _ s k a p p' hs hrun ih =>
    obtain ⟨hext, -⟩ := hrun.extends hp
    have hanswer : p'.answer keep s = p.answer keep s := hrun.answer_known hp hs
    rw [Inquiry.asked, hanswer] at hy
    rcases h.next keep y hy with ⟨-, hy⟩ | ⟨k', q₀, hq₀, hv, ht, hk'⟩
    · exact ih h hp hd he y hy
    · obtain ⟨q₁, hq₁, hask⟩ := hq₀.ask_settled ho hp (he.of_extends hp hext) hs
      rw [hanswer] at hv ht
      obtain ⟨q', hr, hf⟩ := ih hq₁ hp hd he (k' (p.answer keep s)) ht
      exact ⟨q', hk' _ q' (hask.ask (hv ▸ hr)), hf⟩
  | @walk _ s g pruned k a p p₁ p' hs hwalk hrest ih ih' =>
    obtain ⟨hp₁, hsound₁⟩ := hwalk.extends (hp.enter hs)
    generalize hb : (keep.contains s || pruned.patternsLeft) = b at hrest ih'
    have hfinish : Sound (p₁.finish s pruned b) := hsound₁.finish hp₁ hs
    have hdistinct : Distinct (p₁.finish s pruned b) := hs.distinct_finish hwalk hp hd b
    obtain ⟨hext, -⟩ := hrest.extends hfinish
    have hbefore : Precedes (p₁.finish s pruned b) e := he.of_extends hfinish hext
    have hanswer : p'.answer keep s = b := hrest.answer_finished hs hp₁ hfinish
    rw [Inquiry.asked, hanswer] at hy
    rcases h.next keep y hy with ⟨hno, hy⟩ | ⟨k', q₀, hq₀, hv, ht, hk'⟩
    · rw [hanswer] at hno
      subst hno
      exact ih' (h.walk_dropped hs hwalk hp hd hb hbefore) hfinish hdistinct he y hy
    · rw [hanswer] at hv ht
      -- a grammar that is dropped is left behind; the walk through one that is kept is followed
      obtain ⟨q₁, hq₁, hask⟩ : ∃ q₁, Follows e (p₁.finish s pruned b) q₁ ∧ Runs keep (.ask s .done) q₀ b q₁ := by
        cases b with
        | false =>
          exact (hq₀.walk_dropped hs hwalk hp hd hb hbefore).ask_dropped ho (hbefore.finished hs hp₁).1
        | true =>
          refine hq₀.walk_kept hs hwalk hp hd hb hbefore fun q hq y hy => ?_
          exact ih hq (hp.enter hs) hd (hbefore.of_finish hs hp₁) y hy
      obtain ⟨q', hr, hf⟩ := ih' hq₁ hfinish hdistinct he (k' b) ht
      exact ⟨q', hk' _ q' (hask.ask (hv ▸ hr)), hf⟩

/-- A pass over a whole set has an outcome. -/
theorem outcome_run (grammars : Assoc Grammar) (keep : ScopeSet)
    (hd : ∀ s g, Assoc.get? grammars s = some g → g.Distinct) :
    Outcome keep (run grammars keep (Assoc.keys grammars)) := by
  have hrun := runs_run grammars keep (Assoc.keys grammars)
  obtain ⟨hext, hsound⟩ := hrun.extends (sound_start grammars)
  have hstart : Emptying keep { grammars } := ⟨fun _ h => (by cases h), fun _ _ h => (by cases h)⟩
  obtain ⟨-, hemptying⟩ := (invariant_emptying keep).runs hrun (sound_start grammars) ⟨hd, hstart⟩
  exact ⟨hsound, fun s hs => decided_run grammars keep s (hext.keys ▸ hs), hemptying⟩

/-- A second pass over what a pass over a whole set has left. -/
theorem run_run (grammars : Assoc Grammar) (keep : ScopeSet)
    (hd : ∀ s g, Assoc.get? grammars s = some g → g.Distinct) :
    let e := run grammars keep (Assoc.keys grammars)
    let q := run e.grammars keep (Assoc.keys e.grammars)
    q.grammars = e.grammars ∧ q.report.isNoop = true ∧ q.report.kept = e.report.kept := by
  intro e q
  have hrun := runs_run grammars keep (Assoc.keys grammars)
  have hkeys : Assoc.keys e.grammars = Assoc.keys grammars := (hrun.extends (sound_start grammars)).1.keys
  have hagain : Runs keep (.askAll (Assoc.keys grammars)) { grammars := e.grammars } () q :=
    hkeys ▸ runs_run e.grammars keep (Assoc.keys e.grammars)
  have hstart : Follows e { grammars } { grammars := e.grammars } :=
    ⟨sound_start _, rfl, rfl, rfl, fun _ _ => .rfl, fun _ _ => rfl, fun _ h => absurd h List.not_mem_nil⟩
  obtain ⟨q', hq', hf⟩ := hstart.runs (outcome_run grammars keep hd) hrun (sound_start grammars) hd (.refl e)
    (.askAll (Assoc.keys grammars)) (.refl _ _)
  obtain ⟨-, rfl⟩ := hagain.unique hq'
  exact ⟨hf.grammars, hf.isNoop, hf.kept⟩

end PrunePass

namespace LoadedGrammars

/-- Pruning a second time changes nothing, removes nothing and keeps the same grammars in the same order. -/
theorem prune_prune (l : LoadedGrammars) (keep : ScopeSet) (hl : l.Distinct) :
    ((l.prune keep).2.prune keep).2 = (l.prune keep).2 ∧ ((l.prune keep).2.prune keep).1.isNoop = true ∧
      ((l.prune keep).2.prune keep).1.kept = (l.prune keep).1.kept := by
  obtain ⟨hgrammars, hnoop, hkept⟩ := PrunePass.run_run l.current keep hl.current
  exact ⟨congrArg (fun current => { l with current }) hgrammars, hnoop, hkept⟩

/-- Two grammars that include themselves and each other, and a third that includes both but gives nothing. -/
def ring : LoadedGrammars :=
  let a := Grammar.ofPatterns "a" [.including "#loop", .including "b", .including "a", .including "c"]
  let b := Grammar.ofPatterns "b" [.including "c", .including "a", .named "k"]
  let c := Grammar.ofPatterns "c" [.including "#loop", .including "c"]
  let a := a.addEntry "loop" (.mk {} (some [.including "#loop", .including "b"]) none none none none)
  let c := c.addEntry "loop" (.including "#loop")
  (((((({} : LoadedGrammars).insert a).2).insert b).2).insert c).2

theorem ring_distinct : ring.Distinct := by
  have h := Grammar.distinct_ofPatterns
  exact ((distinct_empty.insert ((h _ _).addEntry _ _)).insert (h _ _)).insert ((h _ _).addEntry _ _)

theorem summary_ring : (ring.prune ["k"]).1 =
    { kept := ["b", "a"], dropped := ["c"], removedPatterns := 6, removedEntries := 1 } := by
  decide +kernel

theorem ring_prune_prune : (ring.prune ["k"]).1.isNoop = false ∧
    ((ring.prune ["k"]).2.prune ["k"]).2 = (ring.prune ["k"]).2 ∧
    ((ring.prune ["k"]).2.prune ["k"]).1.isNoop = true ∧
    ((ring.prune ["k"]).2.prune ["k"]).1.kept = ["b", "a"] := by
  obtain ⟨hleft, hnoop, hkept⟩ := prune_prune ring ["k"] ring_distinct
  rw [summary_ring] at hkept ⊢
  exact ⟨rfl, hleft, hnoop, hkept⟩

end LoadedGrammars

end ScopeActions
