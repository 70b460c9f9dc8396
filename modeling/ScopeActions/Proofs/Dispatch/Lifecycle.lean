import ScopeActions.Proofs.Dispatch.Run
import ScopeActions.Proofs.Dispatch.Together
import ScopeActions.Proofs.Registry.Scan
/-!
# The phases of a run

A batch takes a course, in which its launches settle, in turn until one halts it and side by side all of them
(`Batch.run_comesTo`). The phases of a run are batches, one after the other. Each launches the entries below its name, and
a phase that a launch halts is the last (`Dispatcher.runAllPhases_launches`).
-/

namespace ScopeActions

variable {ε : Type}

/-! ## Courses -/

/-- What follows a launch that halts a batch: nothing in turn, and all others side by side. -/
def BatchMode.following : BatchMode → List (Launch ε) → List (Launch ε)
  | .inTurn, _ => []
  | .together _, ls => ls

namespace Batch

variable {mode : BatchMode} {ls : List (Launch ε)} {w w' : World ε}

/-- Launches that all succeed. -/
def succeeded (ls : List (Launch ε)) : List (Launch ε × Outcome Completion) :=
  ls.map fun l => (l, .value (.ok ()))

/-- From one world to another, the launches that a batch makes, each with what it settles with. In turn, a task runs to
its end before the next is launched, and none is after one that does not succeed. Side by side, all are launched and take
their turns in some order. -/
inductive Course : BatchMode → List (Launch ε) → World ε → List (Launch ε × Outcome Completion) → World ε → Prop
  | nil {w : World ε} : Course .inTurn [] w [] w
  | next {l : Launch ε} {ls : List (Launch ε)} {ends : List (Launch ε × Outcome Completion)} {w w' : World ε} :
      (l.task.run w).2 = .value (.ok ()) → Course .inTurn ls (l.task.run w).1 ends w' →
      Course .inTurn (l :: ls) w ((l, .value (.ok ())) :: ends) w'
  | stop {l : Launch ε} {ls : List (Launch ε)} {w : World ε} : (l.task.run w).2 ≠ .value (.ok ()) →
      Course .inTurn (l :: ls) w [(l, (l.task.run w).2)] (l.task.run w).1
  | together {schedule : Schedule} {ls : List (Launch ε)} {os : List (Nat × Outcome Completion)}
      {outcomes : List (Outcome Completion)} {w w' : World ε} :
      Task.Interleaves w (numbered 0 (ls.map Launch.task)) os w' [] → os.Perm (numbered 0 outcomes) →
      Course (.together schedule) ls w (ls.zip outcomes) w'

/-- What a launch halts a batch with when it settles so. Only side by side, breaking off is a failure. -/
inductive Halts : BatchMode → Launch ε → Outcome Completion → Halt → Prop
  | failed {mode : BatchMode} {l : Launch ε} {cause : ActionFailure} :
      Halts mode l (.value (.error cause)) (.failed (l.failure cause))
  | caught {schedule : Schedule} {l : Launch ε} {p : Panic} :
      Halts (.together schedule) l (.panicked p) (.failed (l.failure (.panicked p.message)))
  | uncaught {l : Launch ε} {p : Panic} : Halts .inTurn l (.panicked p) (.panicked p)

/-- What a batch comes to in a course: its result, the launches it makes, and a world. -/
inductive ComesTo (mode : BatchMode) (ls : List (Launch ε)) (w : World ε) : Except Halt Nat → List (Launch ε) → World ε → Prop
  /-- All launches succeed. -/
  | succeeds {w' : World ε} : Course mode ls w (succeeded ls) w' → ComesTo mode ls w (.ok ls.length) ls w'
  /-- The launch `l` does not succeed, and those before it do. -/
  | halts {before after : List (Launch ε)} {l : Launch ε} {o : Outcome Completion} {halt : Halt}
      {ends : List (Launch ε × Outcome Completion)} {w' : World ε} :
      ls = before ++ l :: after → Course mode ls w (succeeded before ++ (l, o) :: ends) w' → Halts mode l o halt →
      ends.map Prod.fst = mode.following after →
      ComesTo mode ls w (.error halt) (before ++ l :: mode.following after) w'

/-! ## In turn -/

theorem run_inTurn_nil (j : Journal ε) : (run .inTurn []).run.run j = (.ok 0, j) :=
  rfl

/-- A launch that succeeds is one more of a batch in turn. -/
theorem run_inTurn_next {l : Launch ε} {j : Journal ε} (h : (l.task.run j.world).2 = .value (.ok ())) :
    (run .inTurn (l :: ls)).run.run j =
      (((run .inTurn ls).run.run { j with world := (l.task.run j.world).1, launched := j.launched ++ [l] }).1.map (· + 1),
        ((run .inTurn ls).run.run { j with world := (l.task.run j.world).1, launched := j.launched ++ [l] }).2) := by
  rw [run_inTurn, run_inTurn, run_runInTurn_cons, run_runOne, h]
  dsimp only
  rcases (runInTurn ls).run.run { j with world := (l.task.run j.world).1, launched := j.launched ++ [l] } with ⟨_ | _, j'⟩ <;> rfl

theorem run_inTurn_stop {l : Launch ε} {j : Journal ε} (h : (l.task.run j.world).2 ≠ .value (.ok ()))
    (ls : List (Launch ε)) :
    ∃ halt, Halts .inTurn l (l.task.run j.world).2 halt ∧ (run .inTurn (l :: ls)).run.run j =
      (.error halt, { j with world := (l.task.run j.world).1, launched := j.launched ++ [l] }) := by
  rw [run_inTurn, run_runInTurn_cons, run_runOne]
  rcases ho : (l.task.run j.world).2 with ⟨cause | ⟨⟨⟩⟩⟩ | p
  · exact ⟨_, .failed, rfl⟩
  · exact absurd ho h
  · exact ⟨_, .uncaught, rfl⟩

theorem ComesTo.next {l : Launch ε} {launched : List (Launch ε)} {result : Except Halt Nat}
    (hl : (l.task.run w).2 = .value (.ok ())) (h : ComesTo .inTurn ls (l.task.run w).1 result launched w') :
    ComesTo .inTurn (l :: ls) w (result.map (· + 1)) (l :: launched) w' := by
  cases h with
  | succeeds hc => exact .succeeds (.next hl hc)
  | @halts before after l' o halt ends _ hls hc hhalt hends =>
    have hcourse : Course .inTurn (l :: ls) w (succeeded (l :: before) ++ (l', o) :: ends) w' := .next hl hc
    exact .halts (congrArg (l :: ·) hls) hcourse hhalt hends

theorem run_inTurn_comesTo (ls : List (Launch ε)) (j : Journal ε) : ∃ result launched w',
    ComesTo .inTurn ls j.world result launched w' ∧
    (run .inTurn ls).run.run j = (result, { j with world := w', launched := j.launched ++ launched }) := by
  induction ls generalizing j with
  | nil => exact ⟨.ok 0, [], j.world, .succeeds .nil, by rw [run_inTurn_nil, List.append_nil]⟩
  | cons l ls ih =>
    by_cases hl : (l.task.run j.world).2 = .value (.ok ())
    · obtain ⟨result, launched, w', hcomes, hrun⟩ :=
        ih { j with world := (l.task.run j.world).1, launched := j.launched ++ [l] }
      refine ⟨result.map (· + 1), l :: launched, w', hcomes.next hl, ?_⟩
      rw [run_inTurn_next hl, hrun, List.append_cons j.launched l launched]
    · obtain ⟨halt, hhalt, hrun⟩ := run_inTurn_stop hl ls
      have hfirst : l :: ls = [] ++ l :: ls := rfl
      exact ⟨_, [l], _, .halts hfirst (.stop hl) hhalt rfl, hrun⟩

/-! ## Side by side -/

theorem Fails.halts {l : Launch ε} {o : Outcome Completion} {cause : ActionFailure} (h : Fails o cause)
    (schedule : Schedule) : Halts (.together schedule) l o (.failed (l.failure cause)) := by
  cases h with
  | error => exact .failed
  | text => exact .caught
  | other => exact .caught

theorem zip_replicate_eq (ls : List (Launch ε)) : ls.zip (List.replicate ls.length (.value (.ok ()))) = succeeded ls := by
  unfold succeeded
  rw [List.map_prod_left_eq_zip, List.map_const']

/-- Either all launches succeed, or one of them is the first that does not. -/
theorem exists_halts (schedule : Schedule) {outcomes : List (Outcome Completion)} (h : outcomes.length = ls.length) :
    (firstFailure? ls outcomes = none ∧ ls.zip outcomes = succeeded ls) ∨
    ∃ before l after o ends e, ls = before ++ l :: after ∧ ls.zip outcomes = succeeded before ++ (l, o) :: ends ∧
      Halts (.together schedule) l o (.failed e) ∧ ends.map Prod.fst = after ∧ firstFailure? ls outcomes = some e := by
  rcases firstFailure?_split h with ⟨hfirst, rfl⟩ | ⟨before, l, after, o, rest, cause, rfl, rfl, hfails, hfirst⟩
  · exact .inl ⟨hfirst, zip_replicate_eq ls⟩
  · have hrest : rest.length = after.length := by simpa using h
    refine .inr ⟨before, l, after, o, after.zip rest, _, rfl, ?_, hfails.halts schedule, List.map_fst_zip hrest.ge, hfirst⟩
    rw [List.zip_append List.length_replicate.symm, zip_replicate_eq, List.zip_cons_cons]

theorem run_together_comesTo (schedule : Schedule) (ls : List (Launch ε)) (j : Journal ε) : ∃ result launched w',
    ComesTo (.together schedule) ls j.world result launched w' ∧
    (run (.together schedule) ls).run.run j = (result, { j with world := w', launched := j.launched ++ launched }) := by
  obtain ⟨os, hi, hos⟩ :=
    TaskPool.exists_interleaves_drain schedule (TaskPool.settled_launchAll (ls.map Launch.task)) j.world
  rw [TaskPool.waiting_launchAll] at hi
  rw [run_together_eq]
  generalize (TaskPool.launchAll {} (ls.map Launch.task)).drain schedule j.world = after at hi hos ⊢
  obtain ⟨outcomes, w', pool⟩ := after
  dsimp only at hi hos ⊢
  have hnumbers := hi.numbers
  rw [List.map_nil, List.append_nil, map_fst_numbered, List.length_map] at hnumbers
  have hperm : os.Perm (numbered 0 outcomes) := hos ▸ perm_numbered hnumbers
  have hlength : outcomes.length = ls.length := by
    rw [← length_numbered (n := 0), ← hperm.length_eq, ← List.length_map Prod.fst, hnumbers.length_eq, List.length_range']
  have hcourse : Course (.together schedule) ls j.world (ls.zip outcomes) w' := .together hi hperm
  rcases exists_halts schedule hlength with ⟨hfirst, hall⟩ | ⟨before, l, after, o, ends, e, rfl, hzip, hhalt, hends, hfirst⟩
  · rw [hall] at hcourse
    rw [hfirst]
    exact ⟨_, _, _, .succeeds hcourse, rfl⟩
  · rw [hzip] at hcourse
    rw [hfirst]
    exact ⟨_, _, _, .halts rfl hcourse hhalt hends, rfl⟩

/-- A batch comes to what it does in some course. -/
theorem run_comesTo (mode : BatchMode) (ls : List (Launch ε)) (j : Journal ε) : ∃ result launched w',
    ComesTo mode ls j.world result launched w' ∧
    (run mode ls).run.run j = (result, { j with world := w', launched := j.launched ++ launched }) := by
  cases mode with
  | inTurn => exact run_inTurn_comesTo ls j
  | together schedule => exact run_together_comesTo schedule ls j

end Batch

/-! ## Phases -/

namespace Dispatcher

variable {d : Dispatcher ε} {files : List String} {log : List (Entry (Handler (World ε)))}

/-- All launches of these phases succeed, one phase after the other. -/
inductive PhasesPass (d : Dispatcher ε) (files : List String) : List String → World ε → World ε → Prop
  | nil {w : World ε} : PhasesPass d files [] w w
  | cons {phase : String} {later : List String} {w w' w'' : World ε} :
      Batch.Course (d.mode d.options.parallel) (d.phaseLaunches phase files) w
        (Batch.succeeded (d.phaseLaunches phase files)) w' →
      PhasesPass d files later w' w'' → PhasesPass d files (phase :: later) w w''

/-- What phases come to, beginning from a journal: a result, and the journal afterwards. -/
inductive PhasesComeTo (d : Dispatcher ε) (files phases : List String) (j : Journal ε) : Except Halt Nat × Journal ε → Prop
  /-- All launches succeed. -/
  | succeed {w : World ε} : d.PhasesPass files phases j.world w →
      PhasesComeTo d files phases j (.ok (phases.flatMap fun phase => d.phaseLaunches phase files).length,
        { j with world := w, launched := j.launched ++ phases.flatMap fun phase => d.phaseLaunches phase files })
  /-- A launch halts its phase, and no later phase begins. -/
  | halt {passed later : List String} {phase : String} {halt : Halt} {launched : List (Launch ε)} {w w' : World ε} :
      phases = passed ++ phase :: later → d.PhasesPass files passed j.world w →
      Batch.ComesTo (d.mode d.options.parallel) (d.phaseLaunches phase files) w (.error halt) launched w' →
      PhasesComeTo d files phases j (.error halt,
        { j with world := w', launched := j.launched ++ ((passed.flatMap fun phase => d.phaseLaunches phase files) ++ launched) })

theorem run_runPhases_cons (d : Dispatcher ε) (files : List String) (phase : String) (later : List String) (j : Journal ε) :
    (d.runPhases files (phase :: later)).run.run j =
      match (Batch.run (d.mode d.options.parallel) (d.phaseLaunches phase files)).run.run j with
      | (.error e, j') => (.error e, j')
      | (.ok n, j') => (((d.runPhases files later).run.run j').1.map (n + ·), ((d.runPhases files later).run.run j').2) := by
  rw [runPhases, run_bind, runPhase_eq]
  rcases (Batch.run (d.mode d.options.parallel) (d.phaseLaunches phase files)).run.run j with ⟨_ | n, j'⟩
  · rfl
  · dsimp only
    rw [run_bind]
    rcases (d.runPhases files later).run.run j' with ⟨_ | _, j''⟩ <;> rfl

theorem runPhases_comeTo (d : Dispatcher ε) (files phases : List String) (j : Journal ε) :
    d.PhasesComeTo files phases j ((d.runPhases files phases).run.run j) := by
  induction phases generalizing j with
  | nil =>
    have hnone : d.PhasesComeTo files [] j (.ok 0, { j with launched := j.launched ++ [] }) := .succeed .nil
    rwa [List.append_nil] at hnone
  | cons phase later ih =>
    obtain ⟨result, launched, w, hcomes, hrun⟩ :=
      Batch.run_comesTo (d.mode d.options.parallel) (d.phaseLaunches phase files) j
    rw [run_runPhases_cons, hrun]
    rcases result with halt | n
    · have hfirst : phase :: later = [] ++ phase :: later := rfl
      exact .halt hfirst .nil hcomes
    · cases hcomes with
      | succeeds hcourse =>
        have hlater := ih { j with world := w, launched := j.launched ++ d.phaseLaunches phase files }
        dsimp only
        generalize (d.runPhases files later).run.run _ = after at hlater ⊢
        cases hlater with
        | succeed hpass =>
          have hall := PhasesComeTo.succeed (j := j) (.cons hcourse hpass)
          rwa [List.flatMap_cons, List.length_append, ← List.append_assoc] at hall
        | @halt passed later' phase' halt launched w' w'' heq hpass hcomes =>
          have hhalt := PhasesComeTo.halt (j := j) (congrArg (phase :: ·) heq) (.cons hcourse hpass) hcomes
          rwa [List.flatMap_cons, List.append_assoc, ← List.append_assoc j.launched] at hhalt

/-- A phase launches the entries below its name, by scope and then by registration. -/
theorem arranges_phaseLaunches (hr : d.registry.Records log) {phase : String} (hp : phase ∈ phases) (files : List String) :
    Registry.Arranges (log.filter fun e => e.scope.segments.head? = some phase)
      ((d.phaseLaunches phase files).map (·.entry)) := by
  obtain ⟨start, htext, hsegments⟩ := exists_phase_scope hp
  have hne : phase ≠ "" := by
    rintro rfl
    exact Scope.not_malformed_text start (.inl htext)
  have hlisted : ∀ k : Scope, Registry.Listed phase k ↔ k.segments.head? = some phase := by
    intro k
    rw [Registry.Listed, or_iff_right hne, Scope.startsWith_iff, ← singleton_prefix_iff]
    constructor
    · rintro ⟨s, hs, hprefix⟩
      rwa [Scope.text_inj.1 (hs.trans htext.symm), hsegments] at hprefix
    · intro hprefix
      exact ⟨start, htext, hsegments.symm ▸ hprefix⟩
  have hentries : (d.phaseLaunches phase files).map (·.entry) = (d.registry.scan phase).flatMap (·.entries) := by
    rw [phaseLaunches, List.map_map]
    exact List.map_id' _
  rw [hentries, hr.entries_scan]
  simp only [hlisted]
  exact Registry.arranges_sortBy _

/-- After any calls, a phase launches the entries whose scope begins with its name, by scope and then by registration,
each with its own scope and only `run` with the files; together the phases launch each entry on them once. They run in
order up to the first that does not succeed: there the run stops with the first launch of this phase that does not, in
turn and side by side, and nothing of a later phase is launched. A run without such a launch gives the number of all. -/
theorem runAllPhases_launches (calls : List (Registration (Handler (World ε)))) (options : DispatchSettings)
    (tracer : Tracer) (schedule : Schedule) (files : List String) (j : Journal ε) :
    let log := Registry.accepted (Registry.empty.attemptAll calls).1
    let d : Dispatcher ε := { registry := (Registry.empty.attemptAll calls).2, options, tracer, schedule }
    (∀ phase ∈ phases,
      Registry.Arranges (log.filter fun e => e.scope.segments.head? = some phase)
        ((d.phaseLaunches phase files).map (·.entry)) ∧
      ∀ l ∈ d.phaseLaunches phase files, l.call =
        { scope := l.entry.scope, trigger := "lpic", tokens := if phase = "run" then files else [], line := 0, document := none }) ∧
    ((phases.flatMap fun phase => d.phaseLaunches phase files).map (·.entry)).Perm
      (log.filter fun e => ∃ phase ∈ phases, e.scope.segments.head? = some phase) ∧
    d.PhasesComeTo files phases j ((d.runAllPhases files).run.run j) := by
  intro log d
  have hr : d.registry.Records log := (Registry.counts_empty.attemptAll calls).2.records
  refine ⟨?_, ?_, d.runPhases_comeTo files phases j⟩
  · intro phase hp
    refine ⟨arranges_phaseLaunches hr hp files, ?_⟩
    intro l hl
    obtain ⟨e, -, rfl⟩ := List.mem_map.1 hl
    rfl
  · have hnodup : (phases.map some).Nodup := by decide
    have hphases : (phases.flatMap fun phase => log.filter fun e => e.scope.segments.head? = some phase).Perm
        (log.filter fun e => ∃ phase ∈ phases, e.scope.segments.head? = some phase) := by
      have hperm := Registry.flatMap_filter_perm (fun e => e.scope.segments.head?) log hnodup
      rw [List.flatMap_map] at hperm
      apply hperm.trans (.of_eq (List.filter_congr _))
      intro e _
      rw [decide_eq_decide, List.mem_map]
      simp only [eq_comm]
    rw [List.map_flatMap]
    apply List.Perm.trans _ hphases
    apply List.Perm.flatMap_left
    intro phase hp
    exact (arranges_phaseLaunches hr hp files).perm

end Dispatcher

end ScopeActions
