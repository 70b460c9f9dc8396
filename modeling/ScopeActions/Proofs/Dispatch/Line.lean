import ScopeActions.Dispatch.Dispatcher
import ScopeActions.Proofs.Dispatch.Batch
import ScopeActions.Proofs.Registry.Log
/-!
# Lines

The actions of a line run in turn, bucket by bucket, or side by side as one batch. Where no outcome depends on the
order of turns, both ways end with the same result (`Dispatcher.runLine_modes`).
-/

namespace ScopeActions

namespace Batch

variable {ε : Type}

theorem run_inTurn (ls : List (Launch ε)) (j : Journal ε) : (run .inTurn ls).run.run j =
    match (runInTurn ls).run.run j with
    | (.ok _, j') => (.ok ls.length, j')
    | (.error e, j') => (.error e, j') := by
  rw [run, run_bind]
  rcases (runInTurn ls).run.run j with ⟨_ | _, j'⟩ <;> rfl

theorem run_together (schedule : Schedule) (ls : List (Launch ε)) (j : Journal ε) :
    (run (.together schedule) ls).run.run j =
      match (runTogether schedule ls).run.run j with
      | (.ok _, j') => (.ok ls.length, j')
      | (.error e, j') => (.error e, j') := by
  rw [run, run_bind]
  rcases (runTogether schedule ls).run.run j with ⟨_ | _, j'⟩ <;> rfl

end Batch

namespace Dispatcher

variable {ε : Type} {d : Dispatcher ε} {number : Nat} {document : Option Document}

/-- The launches for the buckets of a line, in order. -/
def lineLaunches (d : Dispatcher ε) (line : String) (tokens : List Token) (number : Nat) (document : Option Document) :
    List (Launch ε) :=
  (d.buckets line tokens).flatMap (d.launches number document)

theorem run_runBuckets_cons (traced : Bool) (b : Bucket) (bs : List Bucket) (j : Journal ε) :
    ∃ events, ∃ told : Journal ε → List TraceEvent, (d.runBuckets traced number document (b :: bs)).run.run j =
      match (Batch.runInTurn (d.launches number document b)).run.run { j with events } with
      | (.error e, j') => (.error e, j')
      | (.ok _, j') =>
        match (d.runBuckets traced number document bs).run.run { j' with events := told j' } with
        | (.error e, j'') => (.error e, j'')
        | (.ok n, j'') => (.ok ((d.launches number document b).length + n), j'') := by
  rw [runBuckets]
  cases hs : traced && d.tracer.admitsActions b.scope.text
  · refine ⟨j.events, fun j' => j'.events, ?_⟩
    dsimp only
    rw [if_neg nofun, run_bind, Batch.run_inTurn]
    rcases (Batch.runInTurn (d.launches number document b)).run.run j with ⟨_ | _, j'⟩
    · rfl
    · dsimp only
      rw [if_neg nofun, run_bind]
      rcases (d.runBuckets traced number document bs).run.run j' with ⟨_ | _, j''⟩ <;> rfl
  · refine ⟨j.events ++ [Tracer.bucketEvent number b], fun j' => j'.events ++ d.tracer.storeEvents j'.world.structures, ?_⟩
    dsimp only
    rw [if_pos rfl, run_bind, RunM.run_tell]
    dsimp only
    rw [run_bind, Batch.run_inTurn]
    rcases (Batch.runInTurn (d.launches number document b)).run.run _ with ⟨_ | _, j'⟩
    · rfl
    · dsimp only
      rw [if_pos rfl, run_bind, RunM.run_tellStore]
      dsimp only
      rw [run_bind]
      rcases (d.runBuckets traced number document bs).run.run _ with ⟨_ | _, j''⟩ <;> rfl

/-- Up to what is told, buckets in turn are one batch in turn. -/
theorem run_runBuckets (d : Dispatcher ε) (traced : Bool) (number : Nat) (document : Option Document) (bs : List Bucket)
    (j : Journal ε) :
    let ls := bs.flatMap (d.launches number document)
    let one := (Batch.runInTurn ls).run.run j
    let each := (d.runBuckets traced number document bs).run.run j
    each.1 = one.1.map (fun _ => ls.length) ∧ each.2.world = one.2.world ∧ each.2.launched = one.2.launched := by
  induction bs generalizing j with
  | nil => exact ⟨rfl, rfl, rfl⟩
  | cons b bs ih =>
    obtain ⟨events, told, hrun⟩ := d.run_runBuckets_cons traced b bs j
    rw [hrun, List.flatMap_cons]
    dsimp only
    rw [Batch.run_runInTurn_append, Batch.run_runInTurn_events]
    rcases (Batch.runInTurn (d.launches number document b)).run.run j with ⟨_ | _, j'⟩
    · exact ⟨rfl, rfl, rfl⟩
    · dsimp only
      -- what is told after a bucket does not change what later ones do
      have hrest := ih { j' with events := told { j' with events } }
      dsimp only at hrest
      rw [Batch.run_runInTurn_events] at hrest
      generalize (d.runBuckets traced number document bs).run.run _ = each at hrest ⊢
      generalize (Batch.runInTurn (bs.flatMap (d.launches number document))).run.run j' = one at hrest ⊢
      obtain ⟨r, each⟩ := each
      obtain ⟨⟨_⟩ | ⟨_⟩, one⟩ := one
      · obtain ⟨rfl, hworld, hlaunched⟩ := hrest
        exact ⟨rfl, hworld, hlaunched⟩
      · obtain ⟨rfl, hworld, hlaunched⟩ := hrest
        exact ⟨congrArg Except.ok List.length_append.symm, hworld, hlaunched⟩

/-- Up to what is told, a line in turn is one batch in turn. -/
theorem run_runLine_inTurn (hd : d.options.parallel = false) (line : String) (tokens : List Token) (number : Nat)
    (document : Option Document) (j : Journal ε) :
    let ls := d.lineLaunches line tokens number document
    let one := (Batch.runInTurn ls).run.run j
    let each := (d.runLine line tokens number document).run.run j
    each.1 = one.1.map (fun _ => ls.length) ∧ each.2.world = one.2.world ∧ each.2.launched = one.2.launched := by
  rw [runLine, run_bind, RunM.run_tell, lineLaunches]
  dsimp only
  by_cases hb : (d.buckets line tokens).isEmpty = true
  · rw [if_pos hb, List.isEmpty_iff.1 hb]
    exact ⟨rfl, rfl, rfl⟩
  · have hrun := d.run_runBuckets (d.tracer.admitsLine line) number document (d.buckets line tokens)
      { j with events := j.events ++ d.tracer.lineEvents number line tokens }
    dsimp only at hrun
    rw [Batch.run_runInTurn_events] at hrun
    rw [if_neg hb, hd, if_neg nofun]
    exact hrun

/-- Side by side, all launches of a line are launched and settle, and the first failure in launch order counts. -/
theorem run_runLine_together (hd : d.options.parallel = true) {line : String} {tokens : List Token} {j : Journal ε}
    {results : List Completion}
    (h : Task.Settles j.world ((d.lineLaunches line tokens number document).map Launch.task) results) :
    let ls := d.lineLaunches line tokens number document
    let all := (d.runLine line tokens number document).run.run j
    (all.1 = match Batch.firstFailure? ls (results.map .value) with
      | none => .ok ls.length
      | some e => .error (.failed e)) ∧
    all.2.launched = j.launched ++ ls ∧
    ∃ os, Task.Interleaves j.world (numbered 0 (ls.map Launch.task)) os all.2.world [] := by
  rw [runLine, run_bind, RunM.run_tell]
  dsimp only
  by_cases hb : (d.buckets line tokens).isEmpty = true
  · rw [if_pos hb]
    rw [lineLaunches, List.isEmpty_iff.1 hb]
    exact ⟨rfl, (List.append_nil _).symm, [], .stop (.refl _)⟩
  · rw [if_neg hb, hd, if_pos rfl, runBatch, run_bind, RunM.run_tell]
    dsimp only
    rw [run_bind, Batch.run_together, ← lineLaunches]
    generalize (d.buckets line tokens).filter _ = shown
    obtain ⟨world, os, hi, hrun⟩ := Batch.run_runTogether d.schedule (j := { j with
      events := j.events ++ d.tracer.lineEvents number line tokens ++ shown.map (Tracer.bucketEvent number) }) h
    rw [hrun]
    cases Batch.firstFailure? (d.lineLaunches line tokens number document) (results.map .value) with
    | some e => exact ⟨rfl, rfl, os, hi⟩
    | none =>
      cases shown with
      | nil => exact ⟨rfl, rfl, os, hi⟩
      | cons b bs => exact ⟨rfl, rfl, os, hi⟩

/-- The dispatcher with lines run side by side or not. -/
def inMode (d : Dispatcher ε) (parallel : Bool) : Dispatcher ε :=
  { d with options := { d.options with parallel } }

/-- In turn and side by side, a line whose outcomes do not depend on the order of turns ends with the same result:
the number of its launches, or the failure of the first that fails. In turn the launches up to that one have run,
side by side all have been launched and have settled. Launches stand in the order of the buckets, then of the
groups, then of registration. -/
theorem runLine_modes (d : Dispatcher ε) (line : String) (tokens : List Token) (number : Nat)
    (document : Option Document) (j : Journal ε) (results : List Completion)
    (h : Task.Settles j.world ((d.lineLaunches line tokens number document).map Launch.task) results) :
    let ls := d.lineLaunches line tokens number document
    let inTurn := ((d.inMode false).runLine line tokens number document).run.run j
    let together := ((d.inMode true).runLine line tokens number document).run.run j
    inTurn.1 = together.1 ∧
    ((results = List.replicate ls.length (.ok ()) ∧ inTurn.1 = .ok ls.length ∧ inTurn.2.launched = j.launched ++ ls ∧
        inTurn.2.world = (Task.runAll (ls.map Launch.task) j.world).2) ∨
      ∃ before l cause, Batch.FirstFails ls results before l cause ∧
        inTurn.1 = .error (.failed (.handler l.entry.scope l.call.trigger l.entry.source l.call.line cause)) ∧
        inTurn.2.launched = j.launched ++ (before ++ [l]) ∧
        inTurn.2.world = (Task.runAll ((before ++ [l]).map Launch.task) j.world).2) ∧
    together.2.launched = j.launched ++ ls ∧
    (∃ os, Task.Interleaves j.world (numbered 0 (ls.map Launch.task)) os together.2.world []) ∧
    ∀ log, d.registry.Records log → ∀ b ∈ d.buckets line tokens, ∀ g ∈ d.registry.resolve b.scope d.options.resolution,
      g.scope.segments <+: b.scope.segments ∧ g.entries = log.filter fun e => e.scope = g.scope := by
  intro ls inTurn together
  have hlength : results.length = ls.length := by
    have := congrArg List.length h.runAll
    simpa [Task.length_runAll] using this.symm
  obtain ⟨hresult, hlaunched, hsettled⟩ := run_runLine_together (d := d.inMode true) rfl h
  obtain ⟨hresult', hworld, hlaunched'⟩ := run_runLine_inTurn (d := d.inMode false) rfl line tokens number document j
  have hgroups : ∀ log, d.registry.Records log → ∀ b ∈ d.buckets line tokens,
      ∀ g ∈ d.registry.resolve b.scope d.options.resolution,
        g.scope.segments <+: b.scope.segments ∧ g.entries = log.filter fun e => e.scope = g.scope := by
    intro log hlog b _ g hg
    obtain ⟨hstart, he⟩ := hlog.of_mem_resolve hg
    exact ⟨hstart, he.symm⟩
  change together.1 = (match Batch.firstFailure? ls (results.map .value) with
    | none => .ok ls.length
    | some e => .error (.failed e)) at hresult
  change inTurn.1 = ((Batch.runInTurn ls).run.run j).1.map (fun _ => ls.length) at hresult'
  change inTurn.2.world = ((Batch.runInTurn ls).run.run j).2.world at hworld
  change inTurn.2.launched = ((Batch.runInTurn ls).run.run j).2.launched at hlaunched'
  rcases Batch.exists_firstFails hlength with hok | ⟨before, l, cause, hfails⟩
  · rw [Batch.run_runInTurn_ok (hok ▸ h.runAll)] at hresult' hworld hlaunched'
    rw [hok, Batch.firstFailure?_replicate] at hresult
    exact ⟨hresult'.trans hresult.symm, .inl ⟨hok, hresult', hlaunched', hworld⟩, hlaunched, hsettled, hgroups⟩
  · rw [hfails.run_runInTurn h.runAll] at hresult' hworld hlaunched'
    rw [hfails.firstFailure?_eq] at hresult
    exact ⟨hresult'.trans hresult.symm, .inr ⟨before, l, cause, hfails, hresult', hlaunched', hworld⟩, hlaunched,
      hsettled, hgroups⟩

/-- A task that lets others run before it succeeds. -/
def patient : Task (World Unit) Completion :=
  { turns := [id], last := fun w => (w, .value (.ok ())) }

/-- A task that fails at once. -/
def failing : Task (World Unit) Completion :=
  .once fun w => (w, .error (.failed "no"))

/-- The second action on `a` fails. -/
def stumbling : Dispatcher Unit where
  registry := (Registry.registerAll .empty [("a", "one", fun _ => patient), ("a", "two", fun _ => failing),
    ("b", "three", fun _ => patient)]).2

theorem tasks_stumbling :
    (stumbling.lineLaunches "x" [⟨0, 1, ["b", "a"]⟩] 0 none).map Launch.task = [patient, patient, failing] :=
  rfl

theorem settles_stumbling (w : World Unit) :
    Task.Settles w [patient, patient, failing] [.ok (), .ok (), .error (.failed "no")] := by
  have hpatient : patient.Keeps (fun _ => True) (.ok ()) := ⟨fun _ _ _ _ => trivial, fun _ _ => ⟨trivial, rfl⟩⟩
  have hfailing : failing.Keeps (fun _ => True) (.error (.failed "no")) := ⟨nofun, fun _ _ => ⟨trivial, rfl⟩⟩
  refine Task.settles_of_keeps (I := fun _ => True) trivial rfl fun i t ht => ?_
  match i with
  | 0 => cases ht; exact ⟨_, rfl, hpatient⟩
  | 1 => cases ht; exact ⟨_, rfl, hpatient⟩
  | 2 => cases ht; exact ⟨_, rfl, hfailing⟩
  | n + 3 => cases ht

theorem runLine_modes_stumbling :
    let j : Journal Unit := { world := { other := () } }
    let inTurn := ((stumbling.inMode false).runLine "x" [⟨0, 1, ["b", "a"]⟩] 0 none).run.run j
    let together := ((stumbling.inMode true).runLine "x" [⟨0, 1, ["b", "a"]⟩] 0 none).run.run j
    Task.Settles j.world ((stumbling.lineLaunches "x" [⟨0, 1, ["b", "a"]⟩] 0 none).map Launch.task)
      [.ok (), .ok (), .error (.failed "no")] ∧ inTurn.1 = together.1 ∧ together.2.launched.length = 3 := by
  intro j inTurn together
  have hsettles : Task.Settles j.world ((stumbling.lineLaunches "x" [⟨0, 1, ["b", "a"]⟩] 0 none).map Launch.task)
      [.ok (), .ok (), .error (.failed "no")] := by
    rw [tasks_stumbling]
    exact settles_stumbling j.world
  obtain ⟨hresult, -, hlaunched, -⟩ := runLine_modes stumbling "x" [⟨0, 1, ["b", "a"]⟩] 0 none j _ hsettles
  exact ⟨hsettles, hresult, congrArg List.length hlaunched⟩

end Dispatcher

end ScopeActions
