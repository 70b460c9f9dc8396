import Mathlib.Algebra.Order.BigOperators.Group.List
import Mathlib.Algebra.Order.Group.Nat
import ScopeActions.Proofs.Grammar.Pass
import ScopeActions.Proofs.Grammar.Steps
/-!
# Passes end

A pass that is given steps, and that leaves an empty grammar in the place of one while it walks through that one:
it fails when the steps are used up. `PrunePass.runWithin_eq`: with enough of them it does not, and what it gives is
what `PrunePass.run` gives. So every pass ends, and no place is left empty.
-/

namespace ScopeActions

namespace PrunePass

/-- Takes a grammar out for a walk and leaves an empty one in its place. -/
def takeOut (scope : String) (p : PrunePass) : PrunePass :=
  { p.enter scope with grammars := Assoc.put p.grammars scope {} }

/-- Decides a grammar. At most `depth` grammars are begun inside each other, and each loop of a walk has `n` steps. -/
def decideWithin (keep : ScopeSet) (n : Nat) : Nat → String → StateT PrunePass Option Bool
  | 0, _ => throw ()
  | depth + 1, scope => do
    let pass ← get
    match pass.report.verdict? scope with
    | some verdict => return verdict
    | none =>
      if pass.visited.contains scope then return keep.contains scope
      match Assoc.get? pass.grammars scope with
      | none => return keep.contains scope
      | some g =>
        set (pass.takeOut scope)
        let surroundings : Surroundings (StateT PrunePass Option) :=
          { keep, loaded := Assoc.keys pass.grammars, decide := decideWithin keep n depth }
        let pruned ← g.pruneRulesWithin n surroundings fun d => modify (diagnosed d)
        let verdict := keep.contains scope || pruned.patternsLeft
        modify (finish scope pruned verdict)
        return verdict

/-- Decides grammars one after the other. -/
def decideAllWithin (keep : ScopeSet) (n : Nat) : List String → StateT PrunePass Option Unit
  | [] => pure ()
  | scope :: scopes => do
    let _ ← decideWithin keep n n scope
    decideAllWithin keep n scopes

/-- A pass with `n` steps for each of its loops and `n` for walks begun inside each other; nothing when they do not
suffice. -/
def runWithin (n : Nat) (grammars : Assoc Grammar) (keep : ScopeSet) (scopes : List String) : Option PrunePass :=
  ((decideAllWithin keep n scopes).run { grammars }).map (·.2)

/-! ## The places of the grammars taken out -/

/-- The walk through the grammar has begun and has not ended. -/
def walking (p : PrunePass) (scope : String) : Bool :=
  p.visited.contains scope && (p.report.verdict? scope).isNone

/-- The pass with an empty grammar in the place of each that a walk goes on in. -/
def vacated (p : PrunePass) : PrunePass :=
  { p with grammars := p.grammars.map fun b => (b.1, if p.walking b.1 = true then {} else b.2) }

variable {keep : ScopeSet} {p q : PrunePass} {s : String} {g : Grammar}

@[simp] theorem keys_vacated (p : PrunePass) : Assoc.keys p.vacated.grammars = Assoc.keys p.grammars := by
  simp [vacated, Assoc.keys]

@[simp] theorem visited_vacated (p : PrunePass) : p.vacated.visited = p.visited := rfl

@[simp] theorem report_vacated (p : PrunePass) : p.vacated.report = p.report := rfl

theorem get?_vacated (p : PrunePass) (t : String) : Assoc.get? p.vacated.grammars t =
    (Assoc.get? p.grammars t).map fun g => if p.walking t = true then {} else g :=
  Assoc.get?_map p.grammars (fun k g => if p.walking k = true then {} else g) t

theorem vacated_eq (h : ∀ s, p.walking s = false) : p.vacated = p := by
  have hgrammars : (p.grammars.map fun b => (b.1, if p.walking b.1 = true then {} else b.2)) = p.grammars := by
    simp [h]
  rw [vacated, hgrammars]

theorem vacated_diagnosed (p : PrunePass) (d : Diagnostic) : (p.diagnosed d).vacated = p.vacated.diagnosed d := by
  have hwalking : (p.diagnosed d).walking = p.walking := funext fun s => by simp [walking, diagnosed]
  rw [vacated, hwalking]
  rfl

/-- A grammar that a walk begins in is in its place until then. -/
theorem get?_vacated_fresh (hs : p.Fresh s g) : Assoc.get? p.vacated.grammars s = some g := by
  have hw : p.walking s = false := by simp [walking, hs.unvisited]
  rw [get?_vacated, hs.loaded, Option.map_some, hw]
  rfl

theorem takeOut_vacated (hk : (Assoc.keys p.grammars).Nodup) (hs : p.Fresh s g) :
    p.vacated.takeOut s = (p.enter s).vacated := by
  have hwalking : ∀ t, (p.enter s).walking t = true ↔ t = s ∨ p.walking t = true := by
    intro t
    by_cases ht : t = s
    · simp [walking, enter, ht, hs.undecided]
    · simp [walking, enter, ht]
  have hgrammars : Assoc.put p.vacated.grammars s {} = (p.enter s).vacated.grammars := by
    refine Assoc.ext ?_ ?_ fun t => ?_
    · rw [Assoc.keys_put, keys_vacated, keys_vacated, if_pos hs.mem_keys]
      rfl
    · exact Assoc.nodup_keys_put (by rwa [keys_vacated]) s _
    · have hgrammar : Assoc.get? (p.enter s).grammars t = Assoc.get? p.grammars t := rfl
      rw [Assoc.get?_put, get?_vacated, get?_vacated, hgrammar]
      simp only [hwalking t]
      by_cases ht : s = t
      · simp [← ht, hs.loaded]
      · simp [ht, Ne.symm ht]
  rw [takeOut, hgrammars]
  rfl

theorem finish_vacated (hk : (Assoc.keys p.grammars).Nodup) (hs : p.Fresh s g) (hq : Extends (p.enter s) q)
    (pruned : PrunedGrammar) (b : Bool) : q.vacated.finish s pruned b = (q.finish s pruned b).vacated := by
  have hmem : s ∈ Assoc.keys q.grammars := hq.keys ▸ hs.mem_keys
  have hwalking : ∀ t, (q.finish s pruned b).walking t = true ↔ t ≠ s ∧ q.walking t = true := by
    intro t
    rw [walking, verdict?_finish hq hs]
    by_cases ht : t = s
    · simp [ht]
    · simp [ht, walking, finish]
  have hgrammars : Assoc.put q.vacated.grammars s pruned.grammar = (q.finish s pruned b).vacated.grammars := by
    refine Assoc.ext ?_ ?_ fun t => ?_
    · rw [Assoc.keys_put, keys_vacated, keys_vacated, if_pos hmem, keys_finish hmem]
    · refine Assoc.nodup_keys_put ?_ s pruned.grammar
      rw [keys_vacated, hq.keys]
      exact hk
    · have hgrammar : Assoc.get? (q.finish s pruned b).grammars t =
          if s = t then some pruned.grammar else Assoc.get? q.grammars t := Assoc.get?_put _ _ _ _
      rw [Assoc.get?_put, get?_vacated, get?_vacated, hgrammar]
      simp only [hwalking t]
      by_cases ht : s = t
      · simp [ht]
      · simp [ht, Ne.symm ht]
  have heq : (q.finish s pruned b).vacated = { q.finish s pruned b with
    grammars := (q.finish s pruned b).vacated.grammars } := rfl
  rw [heq, ← hgrammars]
  rfl

/-! ## The steps suffice -/

/-- Deciding a grammar about which the answer is known. -/
theorem decideWithin_known (n depth : Nat) (h : ∀ g, ¬p.Fresh s g) :
    (decideWithin keep n (depth + 1) s).run p.vacated = some (p.answer keep s, p.vacated) := by
  rw [decideWithin, StateT.run_bind, StateT.run_get, pure_bind]
  dsimp only
  rw [report_vacated, visited_vacated, answer]
  cases hv : p.report.verdict? s with
  | some b => rfl
  | none =>
    dsimp only
    split
    · rfl
    · next hs =>
      cases hg : Assoc.get? p.grammars s with
      | none =>
        rw [get?_vacated, hg]
        rfl
      | some g => exact absurd ⟨hv, by simpa using hs, hg⟩ (h g)

/-- Deciding a grammar by a walk through it. -/
theorem decideWithin_fresh (n depth : Nat) (hk : (Assoc.keys p.grammars).Nodup) (hs : p.Fresh s g)
    (hn : g.steps ≤ n) :
    (decideWithin keep n (depth + 1) s).run p.vacated =
      (((g.inquiry keep (Assoc.keys p.grammars)).perform (decideWithin keep n depth) fun d => modify (diagnosed d)).run
        (p.enter s).vacated).map fun r =>
          (keep.contains s || r.1.patternsLeft, r.2.finish s r.1 (keep.contains s || r.1.patternsLeft)) := by
  have hvisited : p.visited.contains s = false := by simpa using hs.unvisited
  rw [decideWithin, StateT.run_bind, StateT.run_get, pure_bind]
  simp only [report_vacated, hs.undecided, visited_vacated, hvisited, get?_vacated_fresh hs, keys_vacated,
    Grammar.pruneRulesWithin_eq _ _ g n hn, Grammar.pruneRules_inquired, takeOut_vacated hk hs]
  rw [if_neg Bool.false_ne_true, StateT.run_bind, StateT.run_set, pure_bind, StateT.run_bind]
  cases ((g.inquiry keep (Assoc.keys p.grammars)).perform (decideWithin keep n depth) fun d => modify (diagnosed d)).run
    (p.enter s).vacated <;> rfl

/-- Each loop of a walk still to begin ends within `n` steps. -/
def Bounded (n : Nat) (p : PrunePass) : Prop :=
  ∀ s g, s ∉ p.visited → Assoc.get? p.grammars s = some g → g.steps ≤ n

theorem Bounded.enter {n : Nat} (h : Bounded n p) (s : String) : Bounded n (p.enter s) := fun t g ht =>
  h t g fun hv => ht (List.mem_append_left [s] hv)

/-- A walk changes no grammar that is still to be visited. -/
theorem Bounded.extends {n : Nat} (h : Bounded n p) (hq : Extends p q) : Bounded n q := fun t g ht hg =>
  h t g (fun hv => ht (hq.visited t hv)) (hq.grammar t (.inr ht) ▸ hg)

variable {α : Type} {x : Inquiry α} {a : α} {p' : PrunePass}

/-- A run is carried out within the steps, when there are enough. -/
theorem Runs.within (h : Runs keep x p a p') (hp : Sound p) (hk : (Assoc.keys p.grammars).Nodup) {n : Nat}
    (hn : Bounded n p) (depth : Nat) (hd : p.unvisited.length < depth) :
    (x.perform (decideWithin keep n depth) fun d => modify (diagnosed d)).run p.vacated = some (a, p'.vacated) := by
  -- a walk visits a grammar, so those begun inside it have one less to visit
  induction h generalizing depth with
  | done a p => rfl
  | report _ ih =>
    rw [Inquiry.perform, StateT.run_bind, StateT.run_modify, pure_bind, ← vacated_diagnosed]
    exact ih (hp.diagnosed _) hk hn depth hd
  | known hs _ ih =>
    obtain ⟨depth, rfl⟩ : ∃ d, depth = d + 1 := ⟨depth - 1, by omega⟩
    rw [Inquiry.perform, StateT.run_bind, decideWithin_known n depth hs]
    exact ih hp hk hn (depth + 1) hd
  | @walk _ s g pruned k a p q p' hs h _ ih ih' =>
    obtain ⟨depth, rfl⟩ : ∃ d, depth = d + 1 := ⟨depth - 1, by omega⟩
    obtain ⟨hq, hsound⟩ := h.extends (hp.enter hs)
    have hext : Extends p (q.finish s pruned (keep.contains s || pruned.patternsLeft)) := hq.finish hs
    have hwalk := ih (hp.enter hs) hk (hn.enter s) depth (by have := length_unvisited_enter hs; omega)
    have hrest := ih' (hsound.finish hq hs) (hext.keys ▸ hk) (hn.extends hext) (depth + 1)
      (Nat.lt_of_le_of_lt hext.length_unvisited_le hd)
    rw [Inquiry.perform, StateT.run_bind, decideWithin_fresh n depth hk hs (hn s g hs.unvisited hs.loaded), hwalk,
      Option.map_some, finish_vacated hk hs hq]
    exact hrest

theorem decideAllWithin_perform (keep : ScopeSet) (n : Nat) (ss : List String) : decideAllWithin keep n ss =
    (Inquiry.askAll ss).perform (decideWithin keep n n) fun d => modify (diagnosed d) := by
  induction ss with
  | nil => rfl
  | cons s ss ih => rw [decideAllWithin, ih]; rfl

/-- A number of steps with which no pass over the set runs out of them. -/
def enough (grammars : Assoc Grammar) : Nat :=
  grammars.length + (grammars.map fun b => b.2.steps).sum + 1

/-- A pass ends by itself, and leaves no place empty. -/
theorem runWithin_eq {grammars : Assoc Grammar} (hk : (Assoc.keys grammars).Nodup) (keep : ScopeSet)
    (scopes : List String) {n : Nat} (hn : enough grammars ≤ n) :
    runWithin n grammars keep scopes = some (run grammars keep scopes) := by
  have h := runs_run grammars keep scopes
  obtain ⟨hext, -⟩ := h.extends (sound_start grammars)
  have hbounded : Bounded n { grammars } := by
    intro s g _ hg
    have hle : g.steps ≤ (grammars.map fun b => b.2.steps).sum :=
      List.single_le_sum (by simp) _ (List.mem_map.2 ⟨(s, g), Assoc.mem_of_get? hg, rfl⟩)
    unfold enough at hn
    omega
  have hdepth : (unvisited { grammars }).length < n := by
    have hle : (unvisited { grammars }).length ≤ (Assoc.keys grammars).length := List.length_filter_le _ _
    rw [Assoc.keys, List.length_map] at hle
    unfold enough at hn
    omega
  have hstart : vacated { grammars } = { grammars } := vacated_eq fun _ => rfl
  have hend : (run grammars keep scopes).vacated = run grammars keep scopes := by
    refine vacated_eq fun s => ?_
    by_cases hs : s ∈ (run grammars keep scopes).visited
    · simp [walking, Option.isNone_eq_false_iff.2 (hext.decided s hs List.not_mem_nil)]
    · simp [walking, hs]
  have hrun := h.within (sound_start grammars) hk hbounded n hdepth
  rw [hstart, hend] at hrun
  rw [runWithin, decideAllWithin_perform, hrun]
  rfl

end PrunePass

end ScopeActions
