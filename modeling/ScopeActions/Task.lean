/-!
# Tasks

A task is a program on a shared world that runs in turns: it does something, lets others run, goes on
later, and in its last turn ends with an outcome. How many turns it takes is fixed when it starts; what
a turn does may depend on the world it finds.
-/

namespace ScopeActions

/-- What a program that breaks off leaves behind: a text, or something that is no text. -/
inductive Panic where
  | text (message : String)
  | other
  deriving DecidableEq, Repr

/-- The text that is reported for a program that broke off. -/
def Panic.message : Panic → String
  | .text message => message
  | .other => "non-string panic payload"

/-- The text left behind, if it is one. -/
def Panic.text? : Panic → Option String
  | .text message => some message
  | .other => none

/-- How a task ends. -/
inductive Outcome (α : Type) where
  | value (a : α)
  | panicked (p : Panic)
  deriving DecidableEq, Repr

/-- A program on a world `σ`. After each of `turns` it lets others run. -/
structure Task (σ α : Type) where
  turns : List (σ → σ) := []
  last : σ → σ × Outcome α

namespace Task

variable {σ α : Type}

/-- Runs the task with nobody in between. -/
def run (t : Task σ α) (s : σ) : σ × Outcome α :=
  t.last (t.turns.foldl (fun s turn => turn s) s)

/-- A task that ends at once and touches nothing. -/
def done (o : Outcome α) : Task σ α :=
  { last := fun s => (s, o) }

/-- How many turns the task still needs. -/
def size (t : Task σ α) : Nat :=
  t.turns.length + 1

end Task

end ScopeActions
