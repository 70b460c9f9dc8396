import ScopeActions.CommandLine.Arguments
import ScopeActions.Config.Basic

/-!
# Commands

What can be asked for on the command line, and the settings there that override a configuration.
-/

namespace ScopeActions

/-- What is asked for. -/
inductive Command where
  /-- List the actions that every run starts with. -/
  | actions
  /-- List the scopes that the loaded grammars can give. -/
  | scopes
  /-- Print grammars; all of them when none is named. -/
  | display (scopes : List String)
  /-- Print the scope of the grammar for a document. -/
  | choose (document : String)
  /-- Prune the grammars and print them; for the scopes of the actions when none is named. -/
  | prune (keep : List String)
  /-- Run the actions over a document whose tokens are recorded. -/
  | trace (document tokens : String) (collect : List String) (prune : Bool)
  deriving DecidableEq, Repr

/-- A command with the settings given beside it. -/
structure CommandLine where
  command : Command
  /-- Configuration files. -/
  files : List String := []
  grammars : List String := []
  parallel : Bool := false
  resolution : Option Resolution := none
  pathPrefix : Option String := none
  logLevel : Option String := none
  verbose : Bool := false
  trace : Bool := false
  traceLines : List String := []
  traceScopes : List String := []
  traceActions : List String := []
  traceStructures : List String := []
  deriving DecidableEq, Repr

namespace CommandLine

/-- A path must not be empty. -/
def checkPath (value : String) : Option UsageError :=
  if value = "" then some .missingValue else none

/-- A policy must be known. -/
def checkResolution (value : String) : Option UsageError :=
  match Resolution.ofName? value with
  | some _ => none
  | none =>
    some (.badValue ("unknown resolution '" ++ value
      ++ "' (expected exact, most-specific or all-ancestors)"))

/-- The options that may stand before and after the subcommand. -/
def sharedOptions : List OptionSpec :=
  [{ long := "config", short := some 'c', arity := .list, check := checkPath },
    { long := "grammar", short := some 'g', arity := .list },
    { long := "parallel", arity := .flag },
    { long := "resolution", arity := .single, check := checkResolution },
    { long := "path", arity := .single },
    { long := "log-level", arity := .single },
    { long := "verbose", short := some 'v', arity := .flag },
    { long := "trace", arity := .flag },
    { long := "trace-line", arity := .list },
    { long := "trace-scope", arity := .list },
    { long := "trace-action", arity := .list },
    { long := "trace-structure", arity := .list }]

/-- The outer level. -/
def outerLevel : LevelSpec where
  options := sharedOptions
  subcommands := ["actions", "scopes", "show", "choose", "prune", "trace"]
  versioned := true

/-- The level of a subcommand. -/
def innerLevel (subcommand : String) : LevelSpec :=
  if subcommand = "show" then { options := sharedOptions, positional := .list "SCOPES" }
  else if subcommand = "choose" then
    { options := sharedOptions, positional := .single "DOCUMENT", required := ["DOCUMENT"] }
  else if subcommand = "prune" then
    { options := { long := "keep", short := some 'k', arity := .list } :: sharedOptions }
  else if subcommand = "trace" then
    { options :=
        { long := "tokens", arity := .single } :: { long := "collect", arity := .list }
          :: { long := "prune", arity := .flag } :: sharedOptions
      positional := .single "DOCUMENT"
      required := ["DOCUMENT", "tokens"] }
  else { options := sharedOptions }

/-- The command that is written. -/
def commandOf (w : WrittenCommand) : Command :=
  let document := (w.last? "DOCUMENT").getD ""
  if w.subcommand = "scopes" then .scopes
  else if w.subcommand = "show" then .display (w.values "SCOPES")
  else if w.subcommand = "choose" then .choose document
  else if w.subcommand = "prune" then .prune (w.values "keep")
  else if w.subcommand = "trace" then
    .trace document ((w.last? "tokens").getD "") (w.values "collect") (w.isGiven "prune")
  else .actions

/-- Reads a command line, without the name of the program. -/
def parse (args : List String) : Except UsageError CommandLine := do
  let w ← WrittenCommand.read outerLevel innerLevel args
  return {
    command := commandOf w
    files := w.values "config"
    grammars := w.values "grammar"
    parallel := w.isGiven "parallel"
    resolution := (w.last? "resolution").bind Resolution.ofName?
    pathPrefix := w.last? "path"
    logLevel := w.last? "log-level"
    verbose := w.isGiven "verbose"
    trace := w.isGiven "trace"
    traceLines := w.values "trace-line"
    traceScopes := w.values "trace-scope"
    traceActions := w.values "trace-action"
    traceStructures := w.values "trace-structure" }

/-- Adds patterns to include to a filter. -/
def extend (f : FilterPatterns) (includes : List String) : FilterPatterns :=
  { f with includes := f.includes ++ includes }

/-- Overrides a configuration with the settings on the command line. -/
def apply (c : CommandLine) (config : Config) : Config where
  logLevel := c.logLevel.getD config.logLevel
  parallel := config.parallel || c.parallel
  resolution := c.resolution.getD config.resolution
  pathPrefix := c.pathPrefix.getD config.pathPrefix
  prune := config.prune
  load := { config.load with grammars := config.load.grammars ++ c.grammars }
  trace := {
    lines := extend config.trace.lines c.traceLines
    scopes := extend config.trace.scopes c.traceScopes
    actions := extend config.trace.actions c.traceActions
    structures := extend config.trace.structures c.traceStructures }

/-- Runs are to be traced: because it is asked for, or because a filter is set. -/
def isTracing (c : CommandLine) (config : Config) : Bool :=
  c.trace || config.trace != {}

end CommandLine

end ScopeActions
