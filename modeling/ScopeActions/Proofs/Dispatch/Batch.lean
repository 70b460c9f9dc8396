import ScopeActions.Dispatch.Batch
import ScopeActions.Proofs.Task.Pool
/-!
# Batches

A batch whose outcomes do not depend on the order of turns stops with the same failure, in turn and side by side:
that of the first launch that fails (`Batch.verdict`).
-/

namespace ScopeActions

/-! ## Steps -/

/-- A step that fails hides what would follow. -/
theorem run_bind {δ σ α β : Type} (x : ExceptT δ (StateM σ) α) (f : α → ExceptT δ (StateM σ) β) (s : σ) :
    (x >>= f).run.run s =
      match x.run.run s with
      | (.ok a, s') => (f a).run.run s'
      | (.error e, s') => (.error e, s') := by
  simp only [bind, ExceptT.bind, ExceptT.mk, ExceptT.run, StateT.run, StateT.bind, ExceptT.bindCont]
  rcases x s with ⟨_ | _, s'⟩ <;> rfl

namespace RunM

variable {ε : Type}

theorem run_get (j : Journal ε) : (get : RunM ε (Journal ε)).run.run j = (.ok j, j) :=
  rfl

theorem run_tell (events : List TraceEvent) (j : Journal ε) :
    (tell events).run.run j = (.ok (), { j with events := j.events ++ events }) :=
  rfl

theorem run_tellStore (t : Tracer) (j : Journal ε) : (tellStore t).run.run j =
    (.ok (), { j with events := j.events ++ t.storeEvents j.world.structures }) :=
  rfl

end RunM

namespace Batch

variable {ε : Type} {ls : List (Launch ε)} {l : Launch ε} {j : Journal ε}

theorem run_runOne (l : Launch ε) (j : Journal ε) : (runOne l).run.run j =
    (match (l.task.run j.world).2 with
      | .value (.ok ()) => .ok ()
      | .value (.error cause) => .error (.failed (l.failure cause))
      | .panicked p => .error (.panicked p),
    { j with world := (l.task.run j.world).1, launched := j.launched ++ [l] }) := by
  rw [runOne, run_bind, RunM.run_get]
  dsimp only
  rcases l.task.run j.world with ⟨world, ⟨_ | _⟩ | _⟩ <;> rfl

theorem run_runInTurn_cons (l : Launch ε) (ls : List (Launch ε)) (j : Journal ε) : (runInTurn (l :: ls)).run.run j =
    match (runOne l).run.run j with
    | (.ok _, j') => (runInTurn ls).run.run j'
    | (.error e, j') => (.error e, j') := by
  rw [runInTurn, run_bind]
  rcases (runOne l).run.run j with ⟨_ | _, j'⟩ <;> rfl

theorem run_runInTurn_append (ls ls' : List (Launch ε)) (j : Journal ε) : (runInTurn (ls ++ ls')).run.run j =
    match (runInTurn ls).run.run j with
    | (.ok _, j') => (runInTurn ls').run.run j'
    | (.error e, j') => (.error e, j') := by
  induction ls generalizing j with
  | nil => rfl
  | cons l ls ih =>
    rw [List.cons_append, run_runInTurn_cons, run_runInTurn_cons]
    rcases (runOne l).run.run j with ⟨_ | _, j'⟩
    · rfl
    · exact ih j'

/-- What a run in turn does depends on no events, and it tells none. -/
theorem run_runInTurn_events (ls : List (Launch ε)) (j : Journal ε) (events : List TraceEvent) :
    (runInTurn ls).run.run { j with events } =
      (((runInTurn ls).run.run j).1, { ((runInTurn ls).run.run j).2 with events }) := by
  induction ls generalizing j with
  | nil => rfl
  | cons l ls ih =>
    rw [run_runInTurn_cons, run_runInTurn_cons, run_runOne, run_runOne]
    dsimp only
    rcases (l.task.run j.world).2 with ⟨_ | ⟨⟨⟩⟩⟩ | _
    · rfl
    · exact ih { j with world := (l.task.run j.world).1, launched := j.launched ++ [l] }
    · rfl

/-! ## The first failure -/

/-- The launch `l` is the first to fail, after those before it succeed. -/
def FirstFails (ls : List (Launch ε)) (results : List Completion) (before : List (Launch ε)) (l : Launch ε)
    (cause : ActionFailure) : Prop :=
  (∃ after, ls = before ++ l :: after) ∧ ∃ rest, results = List.replicate before.length (.ok ()) ++ .error cause :: rest

/-- All launches succeed, or one is the first to fail. -/
theorem exists_firstFails {results : List Completion} (h : results.length = ls.length) :
    results = List.replicate ls.length (.ok ()) ∨ ∃ before l cause, FirstFails ls results before l cause := by
  induction ls generalizing results with
  | nil => exact .inl (List.length_eq_zero_iff.1 h)
  | cons l ls ih =>
    rcases results with _ | ⟨⟨cause⟩ | ⟨⟨⟩⟩, results⟩
    · cases h
    · exact .inr ⟨[], l, cause, ⟨ls, rfl⟩, results, rfl⟩
    · rcases ih (Nat.succ.inj h) with rfl | ⟨before, l', cause, ⟨after, rfl⟩, rest, rfl⟩
      · exact .inl rfl
      · exact .inr ⟨l :: before, l', cause, ⟨after, rfl⟩, rest, rfl⟩

theorem firstFailure?_replicate (ls : List (Launch ε)) :
    firstFailure? ls ((List.replicate ls.length (.ok ())).map .value) = none := by
  induction ls with
  | nil => rfl
  | cons l ls ih => exact ih

theorem FirstFails.firstFailure?_eq {results : List Completion} {before : List (Launch ε)} {cause : ActionFailure}
    (h : FirstFails ls results before l cause) : firstFailure? ls (results.map .value) = some (l.failure cause) := by
  obtain ⟨⟨after, rfl⟩, rest, rfl⟩ := h
  induction before with
  | nil => rfl
  | cons b before ih => exact ih

/-! ## In turn -/

/-- Launches that all succeed in turn leave what they do to the world. -/
theorem run_runInTurn_ok
    (h : (Task.runAll (ls.map Launch.task) j.world).1 = (List.replicate ls.length (.ok ())).map .value) :
    (runInTurn ls).run.run j =
      (.ok (), { j with world := (Task.runAll (ls.map Launch.task) j.world).2, launched := j.launched ++ ls }) := by
  induction ls generalizing j with
  | nil =>
    rw [List.append_nil]
    rfl
  | cons l ls ih =>
    obtain ⟨hl, hls⟩ := List.cons.inj h
    rw [run_runInTurn_cons, run_runOne, hl]
    dsimp only
    rw [ih hls]
    simp [Task.runAll]

/-- In turn, the first failure ends the run, and nothing after it has been launched. -/
theorem FirstFails.run_runInTurn {results : List Completion} {before : List (Launch ε)} {cause : ActionFailure}
    (h : FirstFails ls results before l cause)
    (hr : (Task.runAll (ls.map Launch.task) j.world).1 = results.map .value) :
    (runInTurn ls).run.run j = (.error (.failed (l.failure cause)),
      { j with
        world := (Task.runAll ((before ++ [l]).map Launch.task) j.world).2
        launched := j.launched ++ (before ++ [l]) }) := by
  obtain ⟨⟨after, rfl⟩, rest, rfl⟩ := h
  rw [List.map_append, Task.runAll_append, List.map_append] at hr
  obtain ⟨hbefore, hrest⟩ := List.append_inj hr (by simp [Task.length_runAll])
  have hl : (l.task.run (Task.runAll (before.map Launch.task) j.world).2).2 = .value (.error cause) :=
    (List.cons.inj hrest).1
  rw [run_runInTurn_append, run_runInTurn_ok hbefore]
  dsimp only
  rw [run_runInTurn_cons, run_runOne]
  dsimp only
  rw [hl]
  simp [Task.runAll_append, Task.runAll]

/-! ## Side by side -/

theorem run_runTogether_eq (schedule : Schedule) (ls : List (Launch ε)) (j : Journal ε) :
    (runTogether schedule ls).run.run j =
      let after := (TaskPool.launchAll {} (ls.map Launch.task)).drain schedule j.world
      (match firstFailure? ls after.1 with
        | none => .ok ()
        | some e => .error (.failed e),
        { j with world := after.2.1, launched := j.launched ++ ls }) := by
  rw [runTogether, run_bind, RunM.run_get]
  dsimp only
  generalize (TaskPool.launchAll {} (ls.map Launch.task)).drain schedule j.world = after
  cases firstFailure? ls after.1 <;> rfl

/-- Side by side, all are launched and settle, and the first failure in launch order counts. -/
theorem run_runTogether (schedule : Schedule) {results : List Completion}
    (h : Task.Settles j.world (ls.map Launch.task) results) :
    ∃ world os, Task.Interleaves j.world (numbered 0 (ls.map Launch.task)) os world [] ∧
      (runTogether schedule ls).run.run j =
        (match firstFailure? ls (results.map .value) with
          | none => .ok ()
          | some e => .error (.failed e),
        { j with world, launched := j.launched ++ ls }) := by
  obtain ⟨⟨os, hi⟩, hresults⟩ := TaskPool.drain_launchAll schedule (ls.map Launch.task) j.world
  refine ⟨_, os, hi, ?_⟩
  rw [run_runTogether_eq]
  dsimp only
  rw [hresults results h]

end Batch

end ScopeActions
