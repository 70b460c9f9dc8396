import ScopeActions.Config.Filter
import ScopeActions.Files
import ScopeActions.Path
import ScopeActions.Registry
import ScopeActions.Toml.Value

/-!
# Configuration

A configuration is read from TOML. Several files are laid over each other in order before the result is
read as a whole, so a file need only say what differs from those before it.
-/

namespace ScopeActions

/-- What reads the table that a TOML text writes, and gives nothing for a text that is malformed. -/
abbrev TomlReader := String → Option (List (String × Toml))

/-- Files to load at the start. -/
structure StartupFiles where
  /-- Grammar files, as written. -/
  grammars : List String := []
  deriving DecidableEq, Repr

/-- The merged configuration. -/
structure Config where
  logLevel : String := "info"
  /-- The actions of one line run side by side. -/
  parallel : Bool := false
  resolution : Resolution := .exact
  /-- Where relative paths start. -/
  pathPrefix : String := ""
  /-- Grammars are pruned before a trace. -/
  prune : Bool := false
  load : StartupFiles := {}
  trace : TracePatterns := {}
  deriving DecidableEq, Repr

/-- Why a configuration could not be used. The reasons that a reader of a text gives are not kept; a
mark stands for them in messages. -/
inductive ConfigError where
  | io (path : String) (error : IoError)
  | toml (path : String)
  | regex (error : PatternError)
  deriving DecidableEq, Repr

namespace ConfigError

/-- The messages from the outermost to the innermost. -/
def chain : ConfigError → List String
  | .io path error =>
    ["I/O error reading " ++ path ++ ": " ++ error.message, error.message]
  | .toml path => ["TOML error in " ++ path ++ ": <toml>", "<toml>"]
  | .regex error => ["invalid trace pattern '" ++ error.pattern ++ "': <regex>", "<regex>"]

/-- The outermost message. -/
def message (e : ConfigError) : String :=
  e.chain.headD ""

end ConfigError

/-- Reads a policy from a name, or from a table with that name and an empty value. -/
def Resolution.ofSetting? : Setting → Option Resolution
  | .text name => Resolution.ofName? name
  | .table [(name, .table [])] | .table [(name, .list [])] => Resolution.ofName? name
  | _ => none

namespace StartupFiles

/-- Reads the files to load. -/
def ofSetting? (s : Setting) : Option StartupFiles := do
  let group ← s.members? ["grammars"]
  return { grammars := ← Setting.member? Setting.texts? [] group "grammars" }

end StartupFiles

namespace Config

/-- Reads a configuration. -/
def ofSetting? (s : Setting) : Option Config := do
  let group ← s.members?
    ["log_level", "parallel", "resolution", "path_prefix", "prune", "load", "trace"]
  let logLevel ← Setting.member? Setting.text? "info" group "log_level"
  let parallel ← Setting.member? Setting.flag? false group "parallel"
  let resolution ← Setting.member? Resolution.ofSetting? .exact group "resolution"
  let pathPrefix ← Setting.member? Setting.text? "" group "path_prefix"
  let prune ← Setting.member? Setting.flag? false group "prune"
  let load ← Setting.member? StartupFiles.ofSetting? {} group "load"
  let trace ← Setting.member? TracePatterns.ofSetting? {} group "trace"
  return { logLevel, parallel, resolution, pathPrefix, prune, load, trace }

/-- Reads a configuration from a table. -/
def ofTable? (fields : List (String × Toml)) : Option Config :=
  ofSetting? (.ofToml (.table fields))

/-- Reads a configuration from a text. -/
def ofText (read : TomlReader) (text : String) : Except ConfigError Config :=
  match (read text).bind ofTable? with
  | some config => .ok config
  | none => .error (.toml "<inline>")

/-- The file that is used when none is named. -/
def defaultFile : String := "tmgt.toml"

/-- The files that are read: those named, or the default one if it exists. -/
def files (fs : FileSystem) (paths : List String) : List String :=
  if paths.isEmpty then if fs.isFile defaultFile then [defaultFile] else []
  else paths

/-- Lays the tables of files over a table, one after the other. -/
def loadTables (read : TomlReader) (fs : FileSystem) (merged : List (String × Toml)) :
    List String → Except ConfigError (List (String × Toml))
  | [] => .ok merged
  | path :: paths =>
    match fs.readText path with
    | .error e => .error (.io path e)
    | .ok text =>
      match read text with
      | none => .error (.toml path)
      | some fields => loadTables read fs (Toml.merge merged fields) paths

/-- Loads a configuration from files. -/
def ofFiles (read : TomlReader) (fs : FileSystem) (paths : List String) : Except ConfigError Config :=
  match loadTables read fs [] (files fs paths) with
  | .error e => .error e
  | .ok merged =>
    match ofTable? merged with
    | some config => .ok config
    | none => .error (.toml "<merged>")

/-- Resolves a path as written. -/
def resolvePath (config : Config) (home raw : String) : String :=
  ScopeActions.resolvePath home config.pathPrefix raw

/-- The grammar files to load. -/
def grammarFiles (config : Config) (home : String) : List String :=
  config.load.grammars.map (config.resolvePath home)

/-- Compiles the filters of the trace. -/
def compileTrace (config : Config) (engine : PatternEngine) : Except ConfigError TraceFilterSet :=
  match config.trace.compile engine with
  | .ok filters => .ok filters
  | .error e => .error (.regex e)

end Config

end ScopeActions
