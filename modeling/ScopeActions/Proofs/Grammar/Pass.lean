import ScopeActions.Proofs.Grammar.Inquiry
/-!
# Runs of a pruning pass

`PrunePass.Runs` is what a pass does when it carries out an inquiry: a question is answered from what the
pass knows, or by walking through the grammar that it is about. `runs_run` says that every pass is such a
run; that walks are begun inside each other only so many times plays no part after that. A run goes on from
one pass to another as `Extends` says, and gives the result that the inquiry has when the pass at the end of
the run answers it (`Runs.value_eq`).
-/

namespace ScopeActions

namespace PruneSummary

theorem verdict?_decided {r : PruneSummary} {s : String} (h : r.verdict? s = none) (b : Bool) (t : String) :
    (r.decided s b).verdict? t = if t = s then some b else r.verdict? t := by
  simp only [verdict?, decided] at h ⊢
  by_cases ht : t = s
  · subst ht
    have hkept : t ∉ r.kept := fun hk => by simp [hk] at h
    cases b <;> simp [hkept]
  · cases b <;> simp [ht]

@[simp] theorem verdict?_diagnosed (r : PruneSummary) (d : Diagnostic) (s : String) :
    (r.diagnosed d).verdict? s = r.verdict? s := by
  rw [diagnosed]
  split <;> rfl

end PruneSummary

namespace PrunePass

/-- What the pass answers about a grammar: the verdict on it, or else whether its own scope is to be kept. -/
def answer (keep : ScopeSet) (p : PrunePass) (scope : String) : Bool :=
  (p.report.verdict? scope).getD (keep.contains scope)

/-- The walk through a grammar begins. -/
def enter (scope : String) (p : PrunePass) : PrunePass :=
  { p with visited := p.visited ++ [scope] }

/-- The pass with a diagnostic reported. -/
def diagnosed (d : Diagnostic) (p : PrunePass) : PrunePass :=
  { p with report := p.report.diagnosed d }

/-- The grammar is loaded and no walk through it has begun. -/
structure Fresh (p : PrunePass) (scope : String) (g : Grammar) : Prop where
  undecided : p.report.verdict? scope = none
  unvisited : scope ∉ p.visited
  loaded : Assoc.get? p.grammars scope = some g

/-- The pass carries out an inquiry, with this result and ending as this pass. -/
inductive Runs (keep : ScopeSet) : {α : Type} → Inquiry α → PrunePass → α → PrunePass → Prop
  | done {α : Type} (a : α) (p : PrunePass) : Runs keep (.done a) p a p
  | report {α : Type} {d : Diagnostic} {x : Inquiry α} {a : α} {p p' : PrunePass} :
      Runs keep x (p.diagnosed d) a p' → Runs keep (.report d x) p a p'
  /-- The answer is known. -/
  | known {α : Type} {s : String} {k : Bool → Inquiry α} {a : α} {p p' : PrunePass} :
      (∀ g, ¬p.Fresh s g) → Runs keep (k (p.answer keep s)) p a p' → Runs keep (.ask s k) p a p'
  /-- A walk through the grammar finds the answer. -/
  | walk {α : Type} {s : String} {g : Grammar} {pruned : PrunedGrammar} {k : Bool → Inquiry α} {a : α}
      {p q p' : PrunePass} : p.Fresh s g → Runs keep (g.inquiry keep (Assoc.keys p.grammars)) (p.enter s) pruned q →
      Runs keep (k (keep.contains s || pruned.patternsLeft))
        (q.finish s pruned (keep.contains s || pruned.patternsLeft)) a p' →
      Runs keep (.ask s k) p a p'

variable {keep : ScopeSet} {α : Type} {x : Inquiry α} {a : α} {p q p' : PrunePass} {s : String} {g : Grammar}

/-! ## What runs keep -/

/-- A verdict is only on what has been visited, which is loaded. -/
structure Sound (p : PrunePass) : Prop where
  visited : ∀ s, (p.report.verdict? s).isSome → s ∈ p.visited
  loaded : ∀ s ∈ p.visited, s ∈ Assoc.keys p.grammars

/-- One pass comes after another: it has visited more, and has decided all that it has visited in between.
Everything visited before is as it was, and so is everything still to be visited. -/
structure Extends (p q : PrunePass) : Prop where
  keys : Assoc.keys q.grammars = Assoc.keys p.grammars
  visited : ∀ s ∈ p.visited, s ∈ q.visited
  verdict : ∀ s ∈ p.visited, q.report.verdict? s = p.report.verdict? s
  grammar : ∀ s, s ∈ p.visited ∨ s ∉ q.visited → Assoc.get? q.grammars s = Assoc.get? p.grammars s
  decided : ∀ s ∈ q.visited, s ∉ p.visited → (q.report.verdict? s).isSome

theorem Extends.refl (p : PrunePass) : Extends p p :=
  ⟨rfl, fun _ h => h, fun _ _ => rfl, fun _ _ => rfl, fun _ h h' => absurd h h'⟩

theorem Extends.trans (h : Extends p q) (h' : Extends q p') : Extends p p' where
  keys := h'.keys.trans h.keys
  visited s hs := h'.visited s (h.visited s hs)
  verdict s hs := (h'.verdict s (h.visited s hs)).trans (h.verdict s hs)
  grammar s hs := by
    rcases hs with hs | hs
    · rw [h'.grammar s (.inl (h.visited s hs)), h.grammar s (.inl hs)]
    · rw [h'.grammar s (.inr hs), h.grammar s (.inr fun hq => hs (h'.visited s hq))]
  decided s hs hp := by
    by_cases hq : s ∈ q.visited
    · rw [h'.verdict s hq]
      exact h.decided s hq hp
    · exact h'.decided s hs hq

theorem Extends.diagnosed (p : PrunePass) (d : Diagnostic) : Extends p (p.diagnosed d) :=
  ⟨rfl, fun _ h => h, fun s _ => p.report.verdict?_diagnosed d s, fun _ _ => rfl, fun _ h h' => absurd h h'⟩

theorem Sound.diagnosed (hp : Sound p) (d : Diagnostic) : Sound (p.diagnosed d) where
  visited s hs := hp.visited s ((p.report.verdict?_diagnosed d s) ▸ hs)
  loaded := hp.loaded

theorem Fresh.mem_keys (h : p.Fresh s g) : s ∈ Assoc.keys p.grammars :=
  Assoc.mem_keys_of_get? h.loaded

theorem Sound.enter (hp : Sound p) (hs : p.Fresh s g) : Sound (p.enter s) where
  visited t ht := List.mem_append_left [s] (hp.visited t ht)
  loaded t ht := by
    rcases List.mem_append.1 ht with ht | ht
    · exact hp.loaded t ht
    · exact List.mem_singleton.1 ht ▸ hs.mem_keys

theorem mem_visited_enter (p : PrunePass) (s : String) : s ∈ (p.enter s).visited :=
  List.mem_append_right p.visited (List.mem_singleton_self s)

theorem Extends.visited_enter (hq : Extends (p.enter s) q) : s ∈ q.visited :=
  hq.visited s (mem_visited_enter p s)

/-- A grammar is not decided while its walk goes on. -/
theorem Fresh.undecided_of_extends (hs : p.Fresh s g) (hq : Extends (p.enter s) q) : q.report.verdict? s = none :=
  (hq.verdict s (mem_visited_enter p s)).trans hs.undecided

section Finish
variable {pruned : PrunedGrammar} {b : Bool}

theorem verdict?_finish (hq : Extends (p.enter s) q) (hs : p.Fresh s g) (t : String) :
    (q.finish s pruned b).report.verdict? t = if t = s then some b else q.report.verdict? t := by
  exact PruneSummary.verdict?_decided (r := q.report.removed _ _) (hs.undecided_of_extends hq) b t

theorem keys_finish (hs : s ∈ Assoc.keys q.grammars) :
    Assoc.keys (q.finish s pruned b).grammars = Assoc.keys q.grammars := by
  rw [finish, Assoc.keys_put, if_pos hs]

theorem Extends.finish (hq : Extends (p.enter s) q) (hs : p.Fresh s g) : Extends p (q.finish s pruned b) where
  keys := (keys_finish (hq.keys ▸ hs.mem_keys)).trans hq.keys
  visited t ht := hq.visited t (List.mem_append_left [s] ht)
  verdict t ht := by
    have : t ≠ s := fun e => hs.unvisited (e ▸ ht)
    rw [verdict?_finish hq hs, if_neg this]
    exact hq.verdict t (List.mem_append_left [s] ht)
  grammar t ht := by
    have hne : s ≠ t := by
      rintro rfl
      rcases ht with ht | ht
      · exact hs.unvisited ht
      · exact ht hq.visited_enter
    rw [PrunePass.finish, Assoc.get?_put, if_neg hne]
    exact hq.grammar t (ht.imp_left (List.mem_append_left [s]))
  decided t ht hp := by
    rw [verdict?_finish hq hs]
    split
    · rfl
    · next hne => exact hq.decided t ht (by simp [PrunePass.enter, hp, hne])

theorem Sound.finish (hq : Extends (p.enter s) q) (hs : p.Fresh s g) (hsound : Sound q) :
    Sound (q.finish s pruned b) where
  visited t ht := by
    rw [verdict?_finish hq hs] at ht
    split at ht
    · next he => exact he ▸ hq.visited_enter
    · exact hsound.visited t ht
  loaded t ht := by
    rw [keys_finish (hq.keys ▸ hs.mem_keys)]
    exact hsound.loaded t ht

end Finish

/-- A run goes on from a sound pass to one that comes after it. -/
theorem Runs.extends (h : Runs keep x p a p') (hp : Sound p) : Extends p p' ∧ Sound p' := by
  induction h with
  | done a p => exact ⟨.refl p, hp⟩
  | report _ ih =>
    obtain ⟨h, h'⟩ := ih (hp.diagnosed _)
    exact ⟨(Extends.diagnosed _ _).trans h, h'⟩
  | known _ _ ih => exact ih hp
  | walk hs _ _ ih ih' =>
    obtain ⟨hq, hsound⟩ := ih (hp.enter hs)
    obtain ⟨h, h'⟩ := ih' (hsound.finish hq hs)
    exact ⟨(hq.finish hs).trans h, h'⟩

/-- The walk through the grammar goes on. -/
structure InProgress (p : PrunePass) (s : String) : Prop where
  visited : s ∈ p.visited
  undecided : p.report.verdict? s = none

theorem InProgress.of_enter {t : String} (h : InProgress (p.enter s) t) (hne : t ≠ s) : InProgress p t where
  visited := by simpa [enter, hne] using h.visited
  undecided := h.undecided

/-- What goes on later goes on from before. -/
theorem InProgress.of_extends (h : Extends p q) (hs : InProgress q s) : InProgress p s := by
  have hp : s ∈ p.visited := by
    by_cases hp : s ∈ p.visited
    · exact hp
    · have hdecided := h.decided s hs.visited hp
      rw [hs.undecided] at hdecided
      cases hdecided
  exact ⟨hp, (h.verdict s hp).symm.trans hs.undecided⟩

/-- A walk that goes on still does later, in a run begun inside it. -/
theorem InProgress.extends (hs : InProgress p s) (h : Extends p q) : InProgress q s :=
  ⟨h.visited s hs.visited, (h.verdict s hs.visited).trans hs.undecided⟩

theorem Fresh.inProgress_enter (hs : p.Fresh s g) : InProgress (p.enter s) s :=
  ⟨mem_visited_enter p s, hs.undecided⟩

/-! ## Answers -/

/-- Nothing that follows changes the answer about the grammar. -/
def Settled (p : PrunePass) (s : String) : Prop :=
  s ∈ p.visited ∨ s ∉ Assoc.keys p.grammars

theorem Sound.not_visited (hp : Sound p) (hs : s ∉ Assoc.keys p.grammars) : s ∉ p.visited := fun h =>
  hs (hp.loaded s h)

theorem Sound.verdict?_eq_none (hp : Sound p) (hs : s ∉ p.visited) : p.report.verdict? s = none := by
  rw [← Option.not_isSome_iff_eq_none]
  intro h
  exact hs (hp.visited s h)

theorem Settled.extends (hs : Settled p s) (h : Extends p q) : Settled q s := by
  rcases hs with hs | hs
  · exact .inl (h.visited s hs)
  · exact .inr (h.keys ▸ hs)

theorem Settled.answer_eq (hs : Settled p s) (h : Extends p q) (hp : Sound p) (hq : Sound q) :
    q.answer keep s = p.answer keep s := by
  rcases hs with hs | hs
  · rw [answer, answer, h.verdict s hs]
  · have hs' : s ∉ Assoc.keys q.grammars := h.keys ▸ hs
    rw [answer, answer, hp.verdict?_eq_none (hp.not_visited hs), hq.verdict?_eq_none (hq.not_visited hs')]

/-- Only what is still to be visited is fresh. -/
theorem settled_of_not_fresh (hp : Sound p) (h : ∀ g, ¬p.Fresh s g) : Settled p s := by
  by_cases hs : s ∈ p.visited
  · exact .inl hs
  refine .inr fun hk => ?_
  obtain ⟨g, hg⟩ := Assoc.exists_of_mem_keys hk
  exact h g ⟨hp.verdict?_eq_none hs, hs, hg⟩

theorem answer_finish {pruned : PrunedGrammar} {b : Bool} (hq : Extends (p.enter s) q) (hs : p.Fresh s g) :
    (q.finish s pruned b).answer keep s = b := by
  rw [answer, verdict?_finish hq hs, if_pos rfl, Option.getD_some]

theorem settled_finish {pruned : PrunedGrammar} {b : Bool} (hq : Extends (p.enter s) q) :
    Settled (q.finish s pruned b) s :=
  .inl hq.visited_enter

/-- An answer that a run does not have to look for is given in the end as it is given then. -/
theorem Runs.answer_known (h : Runs keep x p a p') (hp : Sound p) (hs : ∀ g, ¬p.Fresh s g) :
    p'.answer keep s = p.answer keep s := by
  obtain ⟨hext, hsound⟩ := h.extends hp
  exact (settled_of_not_fresh hp hs).answer_eq hext hp hsound

/-- The answer about a grammar is in the end the verdict with which its walk was finished. -/
theorem Runs.answer_finished {pruned : PrunedGrammar} {b : Bool} (h : Runs keep x (q.finish s pruned b) a p')
    (hs : p.Fresh s g) (hq : Extends (p.enter s) q) (hfinish : Sound (q.finish s pruned b)) : p'.answer keep s = b := by
  obtain ⟨hext, hsound⟩ := h.extends hfinish
  rw [(settled_finish hq).answer_eq hext hfinish hsound, answer_finish hq hs]

/-- The result is the one that the answers of the pass in the end give, and these are settled. -/
theorem Runs.value_eq (h : Runs keep x p a p') (hp : Sound p) :
    a = x.value (p'.answer keep) ∧ ∀ t ∈ x.asked (p'.answer keep), Settled p' t := by
  induction h with
  | done a p => exact ⟨rfl, fun t ht => by cases ht⟩
  | report _ ih => exact ih (hp.diagnosed _)
  | known hs h ih =>
    obtain ⟨hv, ha⟩ := ih hp
    rw [Inquiry.value, Inquiry.asked, h.answer_known hp hs]
    refine ⟨hv, fun t ht => ?_⟩
    rcases List.mem_cons.1 ht with rfl | ht
    · exact (settled_of_not_fresh hp hs).extends (h.extends hp).1
    · exact ha t ht
  | @walk _ s g pruned k a p q p' hs h h' _ ih =>
    obtain ⟨hq, hsq⟩ := h.extends (hp.enter hs)
    have hfinish : Sound (q.finish s pruned (keep.contains s || pruned.patternsLeft)) := hsq.finish hq hs
    obtain ⟨hv, ha⟩ := ih hfinish
    rw [Inquiry.value, Inquiry.asked, h'.answer_finished hs hq hfinish]
    refine ⟨hv, fun t ht => ?_⟩
    rcases List.mem_cons.1 ht with rfl | ht
    · exact (settled_finish hq).extends (h'.extends hfinish).1
    · exact ha t ht

/-- What every step of a pass keeps. -/
structure Invariant (keep : ScopeSet) (I : PrunePass → Prop) : Prop where
  diagnosed : ∀ p d, I p → I (p.diagnosed d)
  enter : ∀ p s, I p → I (p.enter s)
  finish : ∀ p q s g, p.Fresh s g → Extends (p.enter s) q → I p → I q →
    let pruned := (g.inquiry keep (Assoc.keys p.grammars)).value (q.answer keep)
    I (q.finish s pruned (keep.contains s || pruned.patternsLeft))

/-- A run keeps what every step keeps. -/
theorem Invariant.runs {I : PrunePass → Prop} (hI : Invariant keep I) (h : Runs keep x p a p') (hp : Sound p)
    (hi : I p) : I p' := by
  induction h with
  | done a p => exact hi
  | report _ ih => exact ih (hp.diagnosed _) (hI.diagnosed _ _ hi)
  | known _ _ ih => exact ih hp hi
  | @walk _ s g pruned k a p q p' hs h _ ih ih' =>
    obtain ⟨hq, hsound⟩ := h.extends (hp.enter hs)
    have hfinish := hI.finish p q s g hs hq hi (ih (hp.enter hs) (hI.enter p s hi))
    rw [← (h.value_eq (hp.enter hs)).1] at hfinish
    exact ih' (hsound.finish hq hs) hfinish

/-- There is one run of an inquiry from a pass. -/
theorem Runs.unique {a' : α} (h : Runs keep x p a p') (h' : Runs keep x p a' q) : a = a' ∧ p' = q := by
  induction h generalizing q with
  | done a p =>
    cases h'
    exact ⟨rfl, rfl⟩
  | report _ ih =>
    cases h' with
    | report h' => exact ih h'
  | known hs _ ih =>
    cases h' with
    | known _ h' => exact ih h'
    | walk hs' _ _ => exact absurd hs' (hs _)
  | walk hs _ _ ih ih' =>
    cases h' with
    | known hs' _ => exact absurd hs (hs' _)
    | walk hs' h' h'' =>
      obtain rfl := Option.some.inj (hs.loaded.symm.trans hs'.loaded)
      obtain ⟨rfl, rfl⟩ := ih h'
      exact ih' h''

/-! ## Every pass is a run -/

/-- One step of deciding a grammar. -/
theorem decide_run (n : Nat) (s : String) (p : PrunePass) :
    (decide keep (n + 1) s).run p =
      match p.report.verdict? s with
      | some b => (b, p)
      | none =>
        if p.visited.contains s then (keep.contains s, p)
        else
          match Assoc.get? p.grammars s with
          | none => (keep.contains s, p)
          | some g =>
            let r := ((g.inquiry keep (Assoc.keys p.grammars)).perform (decide keep n) diagnose).run (p.enter s)
            (keep.contains s || r.1.patternsLeft, r.2.finish s r.1 (keep.contains s || r.1.patternsLeft)) := by
  rw [decide, StateT.run_bind, StateT.run_get, pure_bind]
  dsimp only
  cases p.report.verdict? s with
  | some b => rfl
  | none =>
    dsimp only
    split
    · rfl
    · cases Assoc.get? p.grammars s with
      | none => rfl
      | some g =>
        dsimp only
        rw [Grammar.pruneRules_inquired]
        rfl

theorem decide_of_not_fresh (n : Nat) (h : ∀ g, ¬p.Fresh s g) : (decide keep n s).run p = (p.answer keep s, p) := by
  cases n with
  | zero => rfl
  | succ n =>
    rw [decide_run, answer]
    cases hv : p.report.verdict? s with
    | some b => rfl
    | none =>
      dsimp only
      split
      · rfl
      · next hs =>
        cases hg : Assoc.get? p.grammars s with
        | none => rfl
        | some g => exact absurd ⟨hv, by simpa using hs, hg⟩ (h g)

theorem decide_of_fresh (n : Nat) (h : p.Fresh s g) :
    (decide keep (n + 1) s).run p =
      let r := ((g.inquiry keep (Assoc.keys p.grammars)).perform (decide keep n) diagnose).run (p.enter s)
      (keep.contains s || r.1.patternsLeft, r.2.finish s r.1 (keep.contains s || r.1.patternsLeft)) := by
  rw [decide_run, h.undecided, h.loaded]
  dsimp only
  rw [if_neg (by simpa using h.unvisited)]

/-- The grammars that are still to be visited. -/
def unvisited (p : PrunePass) : List String :=
  (Assoc.keys p.grammars).filter fun s => !p.visited.contains s

theorem length_unvisited_enter (h : p.Fresh s g) : (p.enter s).unvisited.length < p.unvisited.length := by
  have heq : (p.enter s).unvisited = p.unvisited.filter (· != s) := by
    rw [unvisited, unvisited, enter, List.filter_filter]
    refine List.filter_congr fun t _ => ?_
    by_cases ht : t = s <;> simp [ht]
  rw [heq, List.length_filter_lt_length_iff_exists]
  refine ⟨s, List.mem_filter.2 ⟨h.mem_keys, ?_⟩, by simp⟩
  simpa using h.unvisited

theorem Extends.length_unvisited_le (h : Extends p q) : q.unvisited.length ≤ p.unvisited.length := by
  rw [unvisited, unvisited, h.keys, ← List.countP_eq_length_filter, ← List.countP_eq_length_filter]
  refine List.countP_mono_left fun s _ hs => ?_
  have hs : s ∉ q.visited := by simpa using hs
  simpa using fun hp => hs (h.visited s hp)

theorem perform_ask_run (n : Nat) (s : String) (k : Bool → Inquiry α) (p : PrunePass) :
    ((Inquiry.ask s k).perform (decide keep n) diagnose).run p =
      ((k ((decide keep n s).run p).1).perform (decide keep n) diagnose).run ((decide keep n s).run p).2 := rfl

/-- With a step for each grammar still to be visited, carrying out an inquiry is a run of it. -/
theorem runs_perform (n : Nat) (x : Inquiry α) (hp : Sound p) (hn : p.unvisited.length ≤ n) :
    Runs keep x p ((x.perform (decide keep n) diagnose).run p).1 ((x.perform (decide keep n) diagnose).run p).2 := by
  -- each walk begun inside another takes a step and visits a grammar; the questions of one walk share its steps
  induction n using Nat.strongRecOn generalizing α x p with
  | _ n ihn =>
    induction x generalizing p with
    | done a => exact .done a p
    | report d x ih => exact .report (ih (hp.diagnosed d) hn)
    | ask s k ih =>
      by_cases hs : ∃ g, p.Fresh s g
      · obtain ⟨g, hs⟩ := hs
        have hlt := length_unvisited_enter hs
        obtain ⟨m, rfl⟩ : ∃ m, n = m + 1 := ⟨n - 1, by omega⟩
        have h := ihn m (Nat.lt_succ_self m) (g.inquiry keep (Assoc.keys p.grammars)) (hp.enter hs) (by omega)
        obtain ⟨hq, hsq⟩ := h.extends (hp.enter hs)
        rw [perform_ask_run, decide_of_fresh m hs]
        exact .walk hs h (ih _ (hsq.finish hq hs) (Nat.le_trans (hq.finish hs).length_unvisited_le hn))
      · have hs : ∀ g, ¬p.Fresh s g := fun g h => hs ⟨g, h⟩
        rw [perform_ask_run, decide_of_not_fresh n hs]
        exact .known hs (ih _ hp hn)

end PrunePass

/-- Asks about grammars one after the other. -/
def Inquiry.askAll : List String → Inquiry Unit
  | [] => .done ()
  | s :: ss => .ask s fun _ => askAll ss

theorem Inquiry.asked_askAll (o : String → Bool) (ss : List String) : (askAll ss).asked o = ss := by
  induction ss with
  | nil => rfl
  | cons s ss ih => exact congrArg (s :: ·) ih

namespace PrunePass

theorem decideAll_perform (keep : ScopeSet) (n : Nat) (ss : List String) :
    decideAll keep n ss = (Inquiry.askAll ss).perform (decide keep n) diagnose := by
  induction ss with
  | nil => rfl
  | cons s ss ih => rw [decideAll, ih]; rfl

theorem sound_start (grammars : Assoc Grammar) : Sound { grammars } where
  visited s hs := by cases hs
  loaded s hs := by cases hs

/-- A pass over a set of grammars asks about the given ones. -/
theorem runs_run (grammars : Assoc Grammar) (keep : ScopeSet) (ss : List String) :
    Runs keep (Inquiry.askAll ss) { grammars } () (run grammars keep ss) := by
  rw [run, decideAll_perform]
  refine runs_perform _ _ (sound_start grammars) ?_
  exact Nat.le_trans (List.length_filter_le _ _) (by simp [Assoc.keys])

/-- A pass decides what it is asked about and is loaded. -/
theorem decided_run_of_mem {grammars : Assoc Grammar} (keep : ScopeSet) {ss : List String} {s : String} (hs : s ∈ ss)
    (hloaded : s ∈ Assoc.keys grammars) : ((run grammars keep ss).report.verdict? s).isSome := by
  have h := runs_run grammars keep ss
  obtain ⟨hext, -⟩ := h.extends (sound_start grammars)
  have hsettled := (h.value_eq (sound_start grammars)).2 s (by rwa [Inquiry.asked_askAll])
  refine hext.decided s (hsettled.resolve_right fun h => h ?_) List.not_mem_nil
  rw [hext.keys]
  exact hloaded

/-- A pass over a whole set decides every grammar in it. -/
theorem decided_run (grammars : Assoc Grammar) (keep : ScopeSet) (s : String) (hs : s ∈ Assoc.keys grammars) :
    ((run grammars keep (Assoc.keys grammars)).report.verdict? s).isSome :=
  decided_run_of_mem keep hs hs

end PrunePass

end ScopeActions
