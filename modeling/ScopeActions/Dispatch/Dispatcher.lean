import ScopeActions.Config.Basic
import ScopeActions.Dispatch.Batch

/-!
# Dispatch

A dispatcher calls the actions of a registry: for the scopes on a line (`runLine`), for all lines of a
document (`runDocument`), or for every scope that starts with given segments (`broadcast`). Lines are
handled strictly in order: a line is not begun before all calls of the one before it have settled.
-/

namespace ScopeActions

/-- How a dispatcher calls actions. -/
structure DispatchSettings where
  /-- The calls of a line run side by side. -/
  parallel : Bool := false
  /-- How a scope on a line finds its actions. -/
  resolution : Resolution := .exact
  deriving DecidableEq, Repr

namespace DispatchSettings

/-- The options in a configuration. -/
def ofConfig (config : Config) : DispatchSettings :=
  { parallel := config.parallel, resolution := config.resolution }

/-- The form in which options are shown to a developer. -/
def debug (o : DispatchSettings) : String :=
  let resolution :=
    match o.resolution with
    | .exact => "Exact"
    | .mostSpecific => "MostSpecific"
    | .allAncestors => "AllAncestors"
  "DispatchOptions \x7b parallel: " ++ toString o.parallel ++ ", resolution: " ++ resolution
    ++ " \x7d"

end DispatchSettings

/-- Splits the lines of a document into tokens, from front to back; what it knows of the lines before is
a state. -/
structure Tokenizer (τ : Type) where
  /-- The state before the first line. -/
  start : τ
  /-- The tokens of a line and the state after it. -/
  tokenize : String → τ → Except String (List Token × τ)

/-- What was dispatched of a document. -/
structure Tally where
  lines : Nat := 0
  actions : Nat := 0
  deriving DecidableEq, Repr

/-- Calls the actions of a registry. -/
structure Dispatcher (ε : Type) where
  registry : Actions ε
  options : DispatchSettings := {}
  tracer : Tracer := .disabled
  /-- The order of turns of calls that run side by side. -/
  schedule : Schedule := .roundRobin

namespace Dispatcher

variable {ε : Type}

/-- The mode of batches that run side by side or not. -/
def mode (d : Dispatcher ε) (parallel : Bool) : BatchMode :=
  if parallel then .together d.schedule else .inTurn

/-- The buckets of a line, for the scopes that find some action. -/
def buckets (d : Dispatcher ε) (line : String) (tokens : List Token) : List Bucket :=
  Bucket.ofLine (fun k => d.registry.finds k d.options.resolution) line tokens

/-- The launches for a bucket. -/
def launches (d : Dispatcher ε) (number : Nat) (document : Option Document) (b : Bucket) :
    List (Launch ε) :=
  ((d.registry.resolve b.scope d.options.resolution).flatMap (·.entries)).map fun entry =>
    { entry
      call := {
        scope := entry.scope, trigger := b.scope.text, tokens := b.texts, line := number,
        document } }

/-- Runs the actions for buckets one after the other. `traced` says whether the line is. -/
def runBuckets (d : Dispatcher ε) (traced : Bool) (number : Nat) (document : Option Document) :
    List Bucket → RunM ε Nat
  | [] => return 0
  | b :: buckets => do
    let shown := traced && d.tracer.admitsActions b.scope.text
    if shown then RunM.tell [Tracer.bucketEvent number b]
    let ran ← Batch.run .inTurn (d.launches number document b)
    if shown then RunM.tellStore d.tracer
    return ran + (← d.runBuckets traced number document buckets)

/-- Runs the actions for all buckets side by side. -/
def runBatch (d : Dispatcher ε) (traced : Bool) (number : Nat) (document : Option Document)
    (buckets : List Bucket) : RunM ε Nat := do
  let shown := buckets.filter fun b => traced && d.tracer.admitsActions b.scope.text
  RunM.tell (shown.map (Tracer.bucketEvent number))
  let ran ← Batch.run (.together d.schedule) (buckets.flatMap (d.launches number document))
  if !shown.isEmpty then RunM.tellStore d.tracer
  return ran

/-- Runs the actions for the scopes on a line and gives the number of launches. -/
def runLine (d : Dispatcher ε) (line : String) (tokens : List Token) (number : Nat)
    (document : Option Document) : RunM ε Nat := do
  RunM.tell (d.tracer.lineEvents number line tokens)
  let traced := d.tracer.admitsLine line
  let buckets := d.buckets line tokens
  if buckets.isEmpty then return 0
  if d.options.parallel then d.runBatch traced number document buckets
  else d.runBuckets traced number document buckets

/-- Splits lines into tokens and runs their actions; the first of them has the given number. -/
def runLines {τ : Type} (d : Dispatcher ε) (t : Tokenizer τ) (document : Document) (number : Nat)
    (state : τ) : List String → RunM ε Tally
  | [] => return {}
  | line :: lines =>
    match t.tokenize line state with
    | .error cause => throw (.failed (.tokenizer document.name number cause))
    | .ok (tokens, state) => do
      let ran ← d.runLine line tokens number (some document)
      let rest ← d.runLines t document (number + 1) state lines
      return { lines := rest.lines + 1, actions := ran + rest.actions }

/-- Splits a document into tokens and runs its actions, line by line. -/
def runDocument {τ : Type} (d : Dispatcher ε) (t : Tokenizer τ) (document : Document) :
    RunM ε Tally :=
  d.runLines t document 0 t.start document.lines

/-- Calls every action on a scope that starts with the given segments, by scope and then by
registration. -/
def broadcast (d : Dispatcher ε) (start trigger : String) (tokens : List String) (line : Nat)
    (document : Option Document) (parallel : Bool) : RunM ε Nat :=
  let entries := (d.registry.scan start).flatMap (·.entries)
  Batch.run (d.mode parallel) (entries.map fun entry =>
    { entry, call := { scope := entry.scope, trigger, tokens, line, document } })

/-- The phases of a run, in order. -/
def phases : List String := ["initialize", "run", "finalize"]

/-- What calls for the actions of a phase. -/
def phaseTrigger : String := "lpic"

/-- Calls every action below the name of a phase. The phase `run` is given the files. -/
def runPhase (d : Dispatcher ε) (phase : String) (files : List String) : RunM ε Nat :=
  d.broadcast phase phaseTrigger (if phase = "run" then files else []) 0 none d.options.parallel

/-- Runs phases in order. -/
def runPhases (d : Dispatcher ε) (files : List String) : List String → RunM ε Nat
  | [] => return 0
  | phase :: phases => do
    let ran ← d.runPhase phase files
    return ran + (← d.runPhases files phases)

/-- Runs all phases. -/
def runAllPhases (d : Dispatcher ε) (files : List String) : RunM ε Nat :=
  d.runPhases files phases

/-- The form in which a dispatcher is shown to a developer. -/
def debug (d : Dispatcher ε) : String :=
  "DispatchLoop \x7b registry: " ++ d.registry.debug ++ ", options: " ++ d.options.debug
    ++ ", tracer: " ++ toString d.tracer.isEnabled ++ ", .. \x7d"

end Dispatcher

end ScopeActions
