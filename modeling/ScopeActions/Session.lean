import ScopeActions.Collector
import ScopeActions.CommandLine.Command
import ScopeActions.Documents
import ScopeActions.Libraries

/-!
# Sessions

A session has a configuration, loaded grammars and actions, and runs a command. What a command writes
before it fails stays written.
-/

namespace ScopeActions

/-- Why a command failed. -/
inductive CommandError where
  | config (e : ConfigError)
  | loading (path : String) (e : GrammarError)
  | grammar (e : GrammarError)
  | registry (e : RegistrationError)
  | reading (path : String) (e : IoError)
  | noGrammar (path : String)
  | replay (e : ReplayError)
  | dispatch (e : DispatchFailure)
  | panicked (p : Panic)
  deriving DecidableEq

/-- The messages from the outermost to the innermost. -/
def CommandError.chain : CommandError → List String
  | .config e => e.chain
  | .loading path e => ("loading grammar " ++ path) :: e.chain
  | .grammar e => e.chain
  | .registry e => [e.message, e.cause.message]
  | .reading path e => ["reading " ++ path, e.message]
  | .noGrammar path => ["no grammar matches " ++ path]
  | .replay e => e.chain
  | .dispatch e => e.chain
  | .panicked p => [p.message]

/-- What a command has given out. -/
structure Output where
  text : String := ""
  events : List TraceEvent := []

/-- Steps of a command, which give out something and may fail. -/
abbrev CommandM := ExceptT CommandError (StateM Output)

namespace CommandM

/-- Writes a line. -/
def writeLine (line : String) : CommandM Unit :=
  modify fun o => { o with text := o.text ++ line ++ "\n" }

/-- Writes lines. -/
def writeLines : List String → CommandM Unit
  | [] => return
  | line :: lines => do
    writeLine line
    writeLines lines

/-- A result, or the failure of the command. -/
def ofExcept {ε α : Type} (wrap : ε → CommandError) : Except ε α → CommandM α
  | .ok a => return a
  | .error e => throw (wrap e)

end CommandM

/-- What commands run in. -/
structure Session where
  config : Config
  grammars : LoadedGrammars := {}
  registry : Actions Unit
  /-- Runs are traced. -/
  tracing : Bool := false
  libraries : Libraries
  files : FileSystem
  /-- The home directory. -/
  home : String
  /-- The order of turns of actions that run side by side. -/
  schedule : Schedule := .roundRobin

namespace Session

/-- Loads grammar files one after the other. -/
def loadGrammars (read : JsonReader) (fs : FileSystem) (l : LoadedGrammars) :
    List String → Except CommandError LoadedGrammars
  | [] => .ok l
  | path :: paths =>
    match l.loadFile read fs path with
    | (.error e, _) => .error (.loading path e)
    | (.ok _, l) => loadGrammars read fs l paths

/-- Starts a session: loads the grammars of the configuration. -/
def start (libraries : Libraries) (config : Config) (tracing : Bool) (files : FileSystem) (home : String)
    (schedule : Schedule) : Except CommandError Session := do
  let grammars ← loadGrammars libraries.json files {} (config.grammarFiles home)
  let registry ← Collector.startRegistry.mapError .registry
  return { config, grammars, registry, tracing, libraries, files, home, schedule }

/-- The scopes of the actions. -/
def actionScopes (s : Session) : ScopeSet :=
  ScopeSet.ofList (s.registry.scopes.map (·.text))

/-- Reads the document at a path as it is written. -/
def readDocument (s : Session) (raw : String) : CommandM Document := do
  let path := s.config.resolvePath s.home raw
  CommandM.ofExcept (.reading path) (Document.load s.files path)

/-- Writes grammars. -/
def writeGrammars (s : Session) : List String → CommandM Unit
  | [] => return
  | scope :: scopes => do
    CommandM.writeLine (← CommandM.ofExcept .grammar (s.grammars.pretty scope))
    s.writeGrammars scopes

/-- Writes the scope of the grammar for a document. -/
def choose (s : Session) (raw : String) : CommandM Unit := do
  let document ← s.readDocument raw
  match s.grammars.choose s.libraries.firstLines document.pathToMatch document.firstLine with
  | some scope => CommandM.writeLine scope
  | none => throw (.noGrammar document.pathToMatch)

/-- Prunes the grammars; writes them and then the report. -/
def prune (s : Session) (keep : List String) : CommandM Unit := do
  let keep := if keep.isEmpty then s.actionScopes else ScopeSet.ofList keep
  let (report, grammars) := s.grammars.prune keep
  { s with grammars }.writeGrammars grammars.scopes
  CommandM.writeLine report.toJson.pretty

/-- The dispatcher of a traced run. -/
def dispatcher (s : Session) (registry : Actions Unit) : CommandM (Dispatcher Unit) := do
  let tracer ←
    if s.tracing then do
      pure (Tracer.ofFilters (← CommandM.ofExcept .config (s.config.compileTrace s.libraries.patterns)))
    else pure .disabled
  return { registry, options := .ofConfig s.config, tracer, schedule := s.schedule }

/-- The phases of a run over one document: all before it, the document, all after it. -/
def runTrace (d : Dispatcher Unit) (stream : TokenStream) (document : Document) : RunM Unit Unit := do
  let files := [document.name]
  let _ ← d.runPhase "initialize" files
  let _ ← d.runPhase "run" files
  let _ ← d.runDocument stream.tokenizer document
  let _ ← d.runPhase "finalize" files

/-- Runs the actions over a document with its recorded tokens, and writes the structures. -/
def trace (s : Session) (raw tokens : String) (collect : List String) (prune : Bool) :
    CommandM Unit := do
  let (registered, registry) := Collector.withCollectors s.registry collect
  CommandM.ofExcept .registry registered
  if prune || s.config.prune then
    let keep := { s with registry }.actionScopes
    CommandM.writeLine (s.grammars.prune keep).1.toJson.pretty
  let document ← s.readDocument raw
  let path := s.config.resolvePath s.home tokens
  let stream ← CommandM.ofExcept .replay (TokenStream.ofFile s.libraries.tokens s.files path)
  let d ← s.dispatcher registry
  let (outcome, journal) := (runTrace d stream document).run.run { world := { other := () } }
  modify fun o => { o with events := o.events ++ journal.events }
  match outcome with
  | .ok () => CommandM.writeLine (Store.snapshot journal.world.structures).pretty
  | .error (.failed e) => throw (.dispatch e)
  | .error (.panicked p) => throw (.panicked p)

/-- Runs a command. -/
def run (s : Session) : Command → CommandM Unit
  | .actions =>
    CommandM.writeLines (s.registry.entries.map fun e => e.scope.text ++ "\t" ++ e.source)
  | .scopes => CommandM.writeLines s.grammars.allScopes
  | .display scopes =>
    s.writeGrammars (if scopes.isEmpty then s.grammars.scopes else scopes)
  | .choose document => s.choose document
  | .prune keep => s.prune keep
  | .trace document tokens collect prune => s.trace document tokens collect prune

end Session

/-- The files that a command reads, by their paths as they are written. -/
def Command.documents : Command → List String
  | .choose document => [document]
  | .trace document tokens _ _ => [document, tokens]
  | .actions | .scopes | .display _ | .prune _ => []

/-- The paths that a command line opens under a configuration, beside those of the configuration. -/
def CommandLine.paths (c : CommandLine) (config : Config) (home : String) : List String :=
  config.grammarFiles home ++ c.command.documents.map (config.resolvePath home)

/-- Runs a command line on a file system: loads the configuration, starts a session and runs the
command in it. -/
def CommandLine.run (c : CommandLine) (libraries : Libraries) (files : FileSystem) (home : String)
    (schedule : Schedule) : CommandM Unit := do
  let config ← CommandM.ofExcept .config (Config.ofFiles libraries.toml files c.files)
  let config := c.apply config
  let session ←
    CommandM.ofExcept id (Session.start libraries config (c.isTracing config) files home schedule)
  session.run c.command

end ScopeActions
