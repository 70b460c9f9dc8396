import ScopeActions.Dispatch.Launch
import ScopeActions.TaskPool

/-!
# Batches

A batch of launches runs in one of two ways. In turn, each action ends before the next is launched, and
the first failure stops the batch. Together, all are launched in order and all settle; then the first
failure in launch order counts. An action that breaks off stops a batch that runs in turn outright; in
one that runs together it is a failure like any other.
-/

namespace ScopeActions

/-- How batches run. -/
inductive BatchMode where
  | inTurn
  | together (schedule : Schedule)

namespace Batch

variable {ε : Type}

/-- Launches an action and runs it to its end. -/
def runOne (l : Launch ε) : RunM ε Unit := do
  let j ← get
  let (world, outcome) := l.task.run j.world
  set { j with world, launched := j.launched ++ [l] }
  match outcome with
  | .value (.ok ()) => return
  | .value (.error cause) => throw (.failed (l.failure cause))
  | .panicked p => throw (.panicked p)

/-- Runs actions one after the other. -/
def runInTurn : List (Launch ε) → RunM ε Unit
  | [] => return
  | l :: ls => do
    runOne l
    runInTurn ls

/-- The first failure in launch order. -/
def firstFailure? (ls : List (Launch ε)) (outcomes : List (Outcome Completion)) :
    Option DispatchFailure :=
  (ls.zip outcomes).findSome? fun p => p.1.failure? p.2

/-- Runs actions side by side. -/
def runTogether (schedule : Schedule) (ls : List (Launch ε)) : RunM ε Unit := do
  let j ← get
  let pool : TaskPool (World ε) Completion := TaskPool.launchAll {} (ls.map (·.task))
  let (outcomes, world, _) := pool.drain schedule j.world
  set { j with world, launched := j.launched ++ ls }
  match firstFailure? ls outcomes with
  | none => return
  | some e => throw (.failed e)

/-- Runs a batch and gives the number of its launches. -/
def run (mode : BatchMode) (ls : List (Launch ε)) : RunM ε Nat := do
  match mode with
  | .inTurn => runInTurn ls
  | .together schedule => runTogether schedule ls
  return ls.length

end Batch

end ScopeActions
