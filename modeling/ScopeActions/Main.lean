import ScopeActions.Bundled
import ScopeActions.Session

/-!
# The program

Reads the files that a command line needs, runs it on them, and writes what it gives out: results to
standard output, traces and failures to standard error.
-/

namespace ScopeActions.Main

/-- What the system says of a failure, as the library tells failures apart. -/
def ioError : IO.Error → IoError
  | .noFileOrDirectory .. => .notFound
  | .inappropriateType _ code details | .permissionDenied _ code details =>
    if code = 20 then .notDirectory
    else if code = 21 then .isDirectory
    else .other (details ++ " (os error " ++ toString code ++ ")")
  | e => .other (toString e)

/-- Opens a path. -/
def openPath (path : String) : IO (String × Except IoError FileNode) := do
  try
    let bytes ← IO.FS.readBinFile path
    return (path, .ok (.file bytes))
  catch e =>
    match ioError e with
    | .isDirectory => return (path, .ok .directory)
    | e => return (path, .error e)

/-- What is shown when help is asked for. -/
def usage : String :=
  "Run scope actions over documents tokenized with TextMate grammars\n\n"
    ++ "Usage: tmgt [OPTIONS] <COMMAND>\n\n"
    ++ "Commands: actions, scopes, show, choose, prune, trace, help\n"

/-- What is said of arguments that are no command, and whether that is a failure. -/
def complaint : UsageError → String × Bool
  | .help => (usage, false)
  | .version => ("tmgt\n", false)
  | .nothingGiven => (usage, true)
  | .unknownArgument => ("error: unexpected argument found\n", true)
  | .unknownSubcommand => ("error: unrecognized subcommand\n", true)
  | .missingArgument => ("error: a required argument was not provided\n", true)
  | .missingSubcommand => ("error: a subcommand is required\n", true)
  | .missingValue => ("error: a value is required\n", true)
  | .badValue message => ("error: invalid value: " ++ message ++ "\n", true)
  | .repeated => ("error: an argument cannot be used multiple times\n", true)
  | .unexpectedValue => ("error: unexpected value for a flag\n", true)

/-- The text of a failure with its causes. -/
def failure (chain : List String) : String :=
  let causes := chain.drop 1
  "Error: " ++ chain.headD "" ++ "\n"
    ++ (if causes.isEmpty then ""
      else "\nCaused by:\n" ++ String.join (causes.map fun c => "    " ++ c ++ "\n"))

/-- Runs a command line and gives the exit code. -/
def runCommand (c : CommandLine) : IO UInt32 := do
  let home := (← IO.getEnv "HOME").getD ""
  let opened ← (if c.files.isEmpty then [Config.defaultFile] else c.files).mapM openPath
  let opened ←
    match Config.ofFiles Libraries.bundled.toml (.ofOpened opened) c.files with
    | .error _ => pure opened
    | .ok config => do pure (opened ++ (← (c.paths (c.apply config) home).mapM openPath))
  let (outcome, out) := (c.run .bundled (.ofOpened opened) home .roundRobin).run.run {}
  let stdout ← IO.getStdout
  stdout.putStr out.text
  stdout.flush
  for event in out.events do
    IO.eprintln event.toJson.render
  match outcome with
  | .ok () => return 0
  | .error e =>
    IO.eprint (failure e.chain)
    return 1

end ScopeActions.Main

open ScopeActions in
/-- The program. -/
def main (args : List String) : IO UInt32 := do
  match CommandLine.parse args with
  | .ok c => Main.runCommand c
  | .error e =>
    let (text, failed) := Main.complaint e
    if failed then
      IO.eprint text
      return 2
    IO.print text
    return 0
