import ScopeActions.Task

/-!
# Task pools

A pool holds tasks from their launch until their outcomes are handed out. Launch indices count from zero
and are never used again. Which waiting task takes the next turn is up to a `Schedule`. Outcomes are
handed out one by one in the order in which the tasks settle (`TaskPool.next`), or all at once in launch
order (`TaskPool.drain`).
-/

namespace ScopeActions

/-- What the tasks of a pool are for. -/
inductive TaskKind where
  | dispatch
  | lifecycle
  deriving DecidableEq, Repr

/-- The name of a kind. -/
def TaskKind.name : TaskKind → String
  | .dispatch => "dispatch"
  | .lifecycle => "lifecycle"

/-- The order of turns. -/
structure Schedule where
  /-- Which of the waiting tasks takes the turn with the given number, by position, counted around. -/
  pick : Nat → Nat
  /-- How many turns are taken beyond one before whoever waits for an outcome looks again. -/
  ahead : Nat := 0

/-- The task that has waited longest takes the turn, and queues up again after it. Outcomes are looked
for after every 61 turns. -/
def Schedule.roundRobin : Schedule := { pick := fun _ => 0, ahead := 60 }

/-- Tasks by launch index. -/
structure TaskPool (σ α : Type) where
  launched : Nat := 0
  /-- Turns taken so far. -/
  turns : Nat := 0
  /-- Tasks that have turns left. -/
  waiting : List (Nat × Task σ α) := []
  /-- Outcomes not handed out yet, in the order in which the tasks settled. -/
  settled : List (Nat × Outcome α) := []

namespace TaskPool

variable {σ α : Type}

/-- Adds a task and gives its launch index. -/
def launch (pool : TaskPool σ α) (t : Task σ α) : Nat × TaskPool σ α :=
  (pool.launched, { pool with launched := pool.launched + 1, waiting := pool.waiting ++ [(pool.launched, t)] })

/-- Adds tasks one after the other. -/
def launchAll (pool : TaskPool σ α) (ts : List (Task σ α)) : TaskPool σ α :=
  ts.foldl (fun pool t => (pool.launch t).2) pool

/-- Number of tasks whose outcome is not handed out yet. -/
def size (pool : TaskPool σ α) : Nat :=
  pool.waiting.length + pool.settled.length

/-- No task is left. -/
def isEmpty (pool : TaskPool σ α) : Bool :=
  pool.size == 0

/-- Turns that the waiting tasks still need. -/
def work (pool : TaskPool σ α) : Nat :=
  pool.waiting.foldr (fun t n => t.2.size + n) 0

/-- A waiting task takes a turn. -/
def turn (schedule : Schedule) (pool : TaskPool σ α) (s : σ) : σ × TaskPool σ α :=
  match h : pool.waiting with
  | [] => (s, pool)
  | first :: others =>
    let i : Fin pool.waiting.length :=
      ⟨schedule.pick pool.turns % pool.waiting.length, Nat.mod_lt _ (by simp [h])⟩
    let (launch, task) := pool.waiting.get i
    let rest := pool.waiting.eraseIdx i
    match task.turns with
    | [] =>
      let (s', outcome) := task.last s
      (s', { pool with
        turns := pool.turns + 1, waiting := rest, settled := pool.settled ++ [(launch, outcome)] })
    | step :: steps =>
      (step s, { pool with
        turns := pool.turns + 1, waiting := rest ++ [(launch, { task with turns := steps })] })

/-- Takes `n` turns, or as many as are left. -/
def advance (schedule : Schedule) : Nat → TaskPool σ α → σ → σ × TaskPool σ α
  | 0, pool, s => (s, pool)
  | n + 1, pool, s =>
    let (s', pool') := pool.turn schedule s
    advance schedule n pool' s'

/-- Takes turns until an outcome can be handed out; looks for one at most `n` times. -/
def settle (schedule : Schedule) : Nat → TaskPool σ α → σ → σ × TaskPool σ α
  | 0, pool, s => (s, pool)
  | n + 1, pool, s =>
    match pool.settled with
    | _ :: _ => (s, pool)
    | [] =>
      let (s', pool') := pool.advance schedule (schedule.ahead + 1) s
      settle schedule n pool' s'

/-- Waits until a task has settled and hands out its outcome; nothing when no task is left. -/
def next (schedule : Schedule) (pool : TaskPool σ α) (s : σ) :
    Option (Nat × Outcome α) × σ × TaskPool σ α :=
  let (s', pool') := settle schedule pool.work pool s
  match pool'.settled with
  | [] => (none, s', pool')
  | outcome :: rest => (some outcome, s', { pool' with settled := rest })

/-- Hands out at most `n` outcomes, in the order in which the tasks settle. -/
def nextMany (schedule : Schedule) : Nat → TaskPool σ α → σ → List (Nat × Outcome α) × σ × TaskPool σ α
  | 0, pool, s => ([], s, pool)
  | n + 1, pool, s =>
    match pool.next schedule s with
    | (none, s', pool') => ([], s', pool')
    | (some outcome, s', pool') =>
      let (outcomes, s'', pool'') := nextMany schedule n pool' s'
      (outcome :: outcomes, s'', pool'')

/-- Waits for every task and hands out all outcomes in launch order. -/
def drain (schedule : Schedule) (pool : TaskPool σ α) (s : σ) : List (Outcome α) × σ × TaskPool σ α :=
  let (outcomes, s', pool') := nextMany schedule pool.size pool s
  ((outcomes.mergeSort fun a b => a.1 ≤ b.1).map (·.2), s', pool')

end TaskPool

end ScopeActions
