import ScopeActions.Dispatch.Trace
import ScopeActions.Registry
import ScopeActions.World

/-!
# Launches

A launch gives a call to a registered action. What a run records is the world, the launches so far and
what a tracer has told. A run stops at the first failure; what was recorded before stays.
-/

namespace ScopeActions

/-- Why the dispatch of a document stopped. -/
inductive DispatchFailure where
  /-- An action failed. -/
  | handler (scope : Scope) (trigger source : String) (line : Nat) (cause : ActionFailure)
  /-- A line could not be split into tokens. -/
  | tokenizer (document : String) (line : Nat) (cause : String)
  deriving DecidableEq

namespace DispatchFailure

/-- The messages from the outermost to the innermost. -/
def chain : DispatchFailure → List String
  | .handler scope trigger source line cause =>
    ["action on '" ++ scope.text ++ "' from " ++ source ++ " failed at line " ++ toString line
      ++ " (triggered by '" ++ trigger ++ "'): " ++ cause.message, cause.message]
  | .tokenizer document line cause =>
    ["tokenizing " ++ document ++ " failed at line " ++ toString line ++ ": " ++ cause, cause]

/-- The outermost message. -/
def message (e : DispatchFailure) : String :=
  e.chain.headD ""

end DispatchFailure

/-- Why a run stopped: by a failure, or because an action broke off. -/
inductive Halt where
  | failed (e : DispatchFailure)
  | panicked (p : Panic)
  deriving DecidableEq

/-- Actions on a world with the store and `ε`. -/
abbrev Actions (ε : Type) := Registry (Handler (World ε))

/-- A registered action with the call that it is given. -/
structure Launch (ε : Type) where
  entry : Entry (Handler (World ε))
  call : Call

namespace Launch

variable {ε : Type}

/-- The task that is launched. -/
def task (l : Launch ε) : Task (World ε) Completion :=
  l.entry.handler l.call

/-- The failure that a run stops with when the action fails. -/
def failure (l : Launch ε) (cause : ActionFailure) : DispatchFailure :=
  .handler l.entry.scope l.call.trigger l.entry.source l.call.line cause

/-- The failure of a task that has settled on its own, if it failed. -/
def failure? (l : Launch ε) : Outcome Completion → Option DispatchFailure
  | .value (.ok ()) => none
  | .value (.error cause) => some (l.failure cause)
  | .panicked p => some (l.failure (.panicked p.message))

end Launch

/-- What a run records. -/
structure Journal (ε : Type) where
  world : World ε
  /-- The launches so far, in order. -/
  launched : List (Launch ε) := []
  /-- What the tracer has told so far. -/
  events : List TraceEvent := []

/-- Steps of a run, which record and may stop it. -/
abbrev RunM (ε : Type) := ExceptT Halt (StateM (Journal ε))

namespace RunM

variable {ε : Type}

/-- Tells something. -/
def tell (events : List TraceEvent) : RunM ε Unit :=
  modify fun j => { j with events := j.events ++ events }

/-- Tells what a tracer tells of the store. -/
def tellStore (t : Tracer) : RunM ε Unit :=
  modify fun j => { j with events := j.events ++ t.storeEvents j.world.structures }

end RunM

end ScopeActions
