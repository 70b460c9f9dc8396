import ScopeActions.Proofs.Dispatch.Line
import ScopeActions.Proofs.Task.Schedule
/-!
# Batches side by side

However the tasks of a batch take their turns, the batch ends when all have settled, and reports the first of its
launches whose own task has failed (`Batch.run_together_reports`). Each order in which the tasks can settle comes about
under some schedule.
-/

namespace ScopeActions

namespace Batch

variable {ε : Type} {ls : List (Launch ε)} {l : Launch ε} {j : Journal ε}

/-! ## Failures -/

/-- A task that ends so has failed for this cause. -/
inductive Fails : Outcome Completion → ActionFailure → Prop
  | error {cause : ActionFailure} : Fails (.value (.error cause)) cause
  | text {message : String} : Fails (.panicked (.text message)) (.panicked message)
  | other : Fails (.panicked .other) (.panicked "non-string panic payload")

theorem not_fails_ok {cause : ActionFailure} : ¬ Fails (.value (.ok ())) cause :=
  nofun

theorem failure?_cases (l : Launch ε) (o : Outcome Completion) :
    (o = .value (.ok ()) ∧ l.failure? o = none) ∨ ∃ cause, Fails o cause ∧ l.failure? o = some (l.failure cause) := by
  rcases o with ⟨cause | ⟨⟨⟩⟩⟩ | ⟨message | _⟩
  · exact .inr ⟨cause, .error, rfl⟩
  · exact .inl ⟨rfl, rfl⟩
  · exact .inr ⟨.panicked message, .text, rfl⟩
  · exact .inr ⟨.panicked "non-string panic payload", .other, rfl⟩

theorem firstFailure?_cons (l : Launch ε) (ls : List (Launch ε)) (o : Outcome Completion)
    (os : List (Outcome Completion)) :
    firstFailure? (l :: ls) (o :: os) = (l.failure? o).or (firstFailure? ls os) := by
  rw [firstFailure?, List.zip_cons_cons, List.findSome?_cons]
  cases l.failure? o <;> rfl

/-- All launches succeed, or the first failure is that of one before which they do. -/
theorem firstFailure?_split {outcomes : List (Outcome Completion)} (h : outcomes.length = ls.length) :
    (firstFailure? ls outcomes = none ∧ outcomes = List.replicate ls.length (.value (.ok ()))) ∨
    ∃ before l after o rest cause, ls = before ++ l :: after ∧
      outcomes = List.replicate before.length (.value (.ok ())) ++ o :: rest ∧ Fails o cause ∧
      firstFailure? ls outcomes = some (l.failure cause) := by
  induction ls generalizing outcomes with
  | nil => exact .inl ⟨rfl, List.length_eq_zero_iff.1 h⟩
  | cons l ls ih =>
    rcases outcomes with _ | ⟨o, outcomes⟩
    · cases h
    rw [firstFailure?_cons]
    rcases failure?_cases l o with ⟨rfl, hnone⟩ | ⟨cause, hfails, hsome⟩
    · rw [hnone, Option.none_or]
      rcases ih (Nat.succ.inj h) with ⟨hfirst, rfl⟩ | ⟨before, l', after, o, rest, cause, rfl, rfl, hfails, hfirst⟩
      · exact .inl ⟨hfirst, rfl⟩
      · exact .inr ⟨l :: before, l', after, o, rest, cause, rfl, rfl, hfails, hfirst⟩
    · rw [hsome, Option.some_or]
      exact .inr ⟨[], l, ls, o, outcomes, cause, rfl, rfl, hfails, rfl⟩

/-- All launches succeed, or the first failure is that of the first whose own outcome is one. -/
theorem firstFailure?_cases (ls : List (Launch ε)) (own : Nat → Outcome Completion) :
    let first := firstFailure? ls ((List.range ls.length).map own)
    (first = none ∧ ∀ i < ls.length, own i = .value (.ok ())) ∨
      ∃ i l cause, ls[i]? = some l ∧ (∀ k < i, own k = .value (.ok ())) ∧ Fails (own i) cause ∧
        first = some (l.failure cause) := by
  have hlength : ((List.range ls.length).map own).length = ls.length := by simp
  have hget : ∀ i < ls.length, ((List.range ls.length).map own)[i]? = some (own i) := by
    intro i hi
    simp [hi]
  rcases firstFailure?_split hlength with ⟨hfirst, hall⟩ | ⟨before, l, after, o, rest, cause, hls, hos, hfails, hfirst⟩
  · refine .inl ⟨hfirst, ?_⟩
    intro i hi
    have howns := hget i hi
    rw [hall, List.getElem?_replicate, if_pos hi] at howns
    exact (Option.some.inj howns).symm
  · have hlt : before.length < ls.length := by simp [hls]
    rw [hos] at hget
    refine .inr ⟨before.length, l, cause, by simp [hls], ?_, ?_, hfirst⟩
    · intro k hk
      have howns := hget k (Nat.lt_trans hk hlt)
      rw [List.getElem?_append_left (by simpa using hk), List.getElem?_replicate, if_pos hk] at howns
      exact (Option.some.inj howns).symm
    · have howns : o = own before.length := by simpa using hget before.length hlt
      exact howns ▸ hfails

/-! ## Reports -/

/-- What a batch reports when its tasks settle in this order. -/
structure Reports (ls : List (Launch ε)) (os : List (Nat × Outcome Completion)) (result : Except Halt Nat) : Prop where
  /-- Each launch has settled, and once. -/
  settled : (os.map Prod.fst).Perm (List.range ls.length)
  /-- What a launch settles with is what the last turn of its own task gives. -/
  own : ∀ p ∈ os, ∃ l, ls[p.1]? = some l ∧ ∃ w, p.2 = (l.task.last w).2
  ok_iff : result = .ok ls.length ↔ ∀ i < ls.length, (i, .value (.ok ())) ∈ os
  failed : (¬ ∀ i < ls.length, (i, .value (.ok ())) ∈ os) → ∃ i l o cause, ls[i]? = some l ∧
    (∀ k < i, (k, .value (.ok ())) ∈ os) ∧ (i, o) ∈ os ∧ Fails o cause ∧
    result = .error (.failed (.handler l.entry.scope l.call.trigger l.entry.source l.call.line cause))

/-- The result of a batch whose tasks settle in this order. -/
def result (ls : List (Launch ε)) (os : List (Nat × Outcome Completion)) : Except Halt Nat :=
  match firstFailure? ls ((os.mergeSort fun a b => a.1 ≤ b.1).map (·.2)) with
  | none => .ok ls.length
  | some e => .error (.failed e)

/-- What settles in any order is sorted by launch, so that each launch meets its own outcome. -/
theorem reports_result {os : List (Nat × Outcome Completion)} {w w' : World ε}
    (h : Task.Interleaves w (numbered 0 (ls.map Launch.task)) os w' []) : Reports ls os (result ls os) := by
  have hsettled : (os.map Prod.fst).Perm (List.range ls.length) := by
    have hnumbers := h.numbers
    rwa [List.map_nil, List.append_nil, map_fst_numbered, List.length_map, ← List.range_eq_range'] at hnumbers
  obtain ⟨own, hown⟩ := exists_own (hsettled.nodup_iff.2 List.nodup_range)
  have hmem : ∀ i o, i < ls.length → ((i, o) ∈ os ↔ own i = o) := by
    intro i o hi
    constructor
    · intro ho
      exact (hown _ ho).symm
    · rintro rfl
      obtain ⟨p, hp, rfl⟩ := List.mem_map.1 (hsettled.mem_iff.2 (List.mem_range.2 hi))
      exact hown p hp ▸ hp
  have hall : (∀ i < ls.length, (i, .value (.ok ())) ∈ os) ↔ ∀ i < ls.length, own i = .value (.ok ()) :=
    forall₂_congr fun i hi => hmem i _ hi
  have hlast : ∀ p ∈ os, ∃ l, ls[p.1]? = some l ∧ ∃ w, p.2 = (l.task.last w).2 := by
    intro p hp
    obtain ⟨t, ht, hlast⟩ := h.exists_last p hp
    have hl := (mem_numbered.1 ht).2
    rw [Nat.sub_zero, List.getElem?_map, Option.map_eq_some_iff] at hl
    obtain ⟨l, hl, rfl⟩ := hl
    exact ⟨l, hl, hlast⟩
  unfold result
  rw [map_snd_mergeSort hsettled List.pairwise_lt_range hown]
  rcases firstFailure?_cases ls own with ⟨hfirst, hok⟩ | ⟨i, l, cause, hl, hbefore, hfails, hfirst⟩
  · rw [hfirst]
    exact ⟨hsettled, hlast, iff_of_true rfl (hall.2 hok), fun hnot => absurd (hall.2 hok) hnot⟩
  · obtain ⟨hi, -⟩ := List.getElem?_eq_some_iff.1 hl
    have hnot : ¬ ∀ i < ls.length, own i = .value (.ok ()) := fun hok => not_fails_ok (hok i hi ▸ hfails)
    rw [hfirst]
    refine ⟨hsettled, hlast, iff_of_false nofun (hall.not.2 hnot), fun _ => ⟨i, l, own i, cause, hl, ?_, ?_, hfails, rfl⟩⟩
    · exact fun k hk => (hmem k _ (Nat.lt_trans hk hi)).2 (hbefore k hk)
    · exact (hmem i _ hi).2 rfl

/-! ## Any order of turns -/

theorem run_together_eq (schedule : Schedule) (ls : List (Launch ε)) (j : Journal ε) :
    (run (.together schedule) ls).run.run j =
      let after := (TaskPool.launchAll {} (ls.map Launch.task)).drain schedule j.world
      (match firstFailure? ls after.1 with
        | none => .ok ls.length
        | some e => .error (.failed e),
        { j with world := after.2.1, launched := j.launched ++ ls }) := by
  rw [run_together, run_runTogether_eq]
  dsimp only
  generalize (TaskPool.launchAll {} (ls.map Launch.task)).drain schedule j.world = after
  cases firstFailure? ls after.1 <;> rfl

/-- A batch that runs side by side launches all its tasks in order and ends when each has settled. Whatever the order of
turns, it succeeds when all its tasks do, and otherwise fails with the failure of its first launch whose own task
failed. Any order in which the tasks settle is that of some schedule. -/
theorem run_together_reports (ls : List (Launch ε)) (j : Journal ε) :
    let ts := numbered 0 (ls.map Launch.task)
    (∀ schedule, ∃ os world r, Task.Interleaves j.world ts os world [] ∧ Reports ls os r ∧
      (run (.together schedule) ls).run.run j = (r, { j with world, launched := j.launched ++ ls })) ∧
    ∀ os world, Task.Interleaves j.world ts os world [] → ∃ schedule r, Reports ls os r ∧
      (run (.together schedule) ls).run.run j = (r, { j with world, launched := j.launched ++ ls }) := by
  intro ts
  have hsettled := TaskPool.settled_launchAll (ls.map Launch.task)
  have hwaiting : (TaskPool.launchAll {} (ls.map Launch.task)).waiting = ts := TaskPool.waiting_launchAll _
  constructor
  · intro schedule
    obtain ⟨os, hi, hos⟩ := TaskPool.exists_interleaves_drain schedule hsettled j.world
    rw [hwaiting] at hi
    refine ⟨os, _, result ls os, hi, reports_result hi, ?_⟩
    rw [run_together_eq]
    dsimp only
    rw [hos]
    rfl
  · intro os world hi
    obtain ⟨schedule, pool', hmany⟩ := TaskPool.exists_schedule hsettled (hwaiting.symm ▸ hi)
    refine ⟨schedule, result ls os, reports_result hi, ?_⟩
    rw [run_together_eq, TaskPool.drain, hmany]
    rfl

/-- A launch on line 3. -/
def onLineThree (source : String) (t : Task (World Unit) Completion) : Launch Unit where
  entry := { scope := (Scope.parse? "a.b").get rfl, source, handler := fun _ => t }
  call := { scope := (Scope.parse? "a.b").get rfl, trigger := "a.b", tokens := [], line := 3, document := none }

/-- The first of three tasks succeeds, the second breaks off and the third fails. -/
def contested : List (Launch Unit) :=
  [onLineThree "one" (.done (.value (.ok ()))), onLineThree "two" (.done (.panicked .other)),
    onLineThree "three" (.done (.value (.error (.failed "no"))))]

theorem run_together_reports_contested :
    let j : Journal Unit := { world := { other := () } }
    let os := [(2, .value (.error (.failed "no"))), (1, .panicked .other), (0, .value (.ok ()))]
    Task.Interleaves j.world (numbered 0 (contested.map Launch.task)) os j.world [] ∧ ∃ schedule,
      ((run (.together schedule) contested).run.run j).1 = .error (.failed
        (.handler ((Scope.parse? "a.b").get rfl) "a.b" "two" 3 (.panicked "non-string panic payload"))) := by
  intro j os
  have hi : Task.Interleaves j.world (numbered 0 (contested.map Launch.task)) os j.world [] :=
    .done (List.reverse_perm _).symm (.done (.refl _) (.done (.refl _) (.stop (.refl _))))
  obtain ⟨schedule, r, hreports, hrun⟩ := (run_together_reports contested j).2 os j.world hi
  have hnot : (1, Outcome.value (Except.ok ())) ∉ os := by decide
  obtain ⟨i, l, o, cause, hl, hbefore, ho, hfails, rfl⟩ := hreports.failed fun hall => hnot (hall 1 (by decide))
  refine ⟨hi, schedule, ?_⟩
  rw [hrun]
  match i with
  | 0 =>
    obtain rfl : o = .value (.ok ()) := by simpa [os] using ho
    exact absurd hfails not_fails_ok
  | 1 =>
    obtain rfl : o = .panicked .other := by simpa [os] using ho
    cases hl
    cases hfails
    rfl
  | i + 2 => exact absurd (hbefore 1 (by omega)) hnot

end Batch

end ScopeActions
