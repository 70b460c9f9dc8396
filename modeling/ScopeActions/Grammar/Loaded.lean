import ScopeActions.Files
import ScopeActions.Grammar.Codec
import ScopeActions.Grammar.Prune
import ScopeActions.Json.Printer
import ScopeActions.Path

/-!
# Loaded grammars

Grammars by their scopes, in the order in which they were loaded. Beside each grammar stands its loaded
form, so that pruning can be undone. A file is loaded once; one that cannot be loaded leaves everything
as it was.

What changes the grammars gives the set that it leaves beside its result, whether it succeeds or fails.
-/

namespace ScopeActions

/-- What reads a JSON text, with repeated keys as written, and gives nothing for one that is malformed. -/
abbrev JsonReader := String → Option Json

/-- What compiles the patterns for first lines, and gives nothing for one that it cannot compile. To
match a compiled pattern against a line can fail. -/
abbrev LineEngine := String → Option (String → Option Bool)

/-- Why a grammar could not be loaded or found. The reasons that a reader of a text gives are not kept;
a mark stands for them in messages. -/
inductive GrammarError where
  | io (path : String) (error : IoError)
  | json (path : String)
  | missingScopeName (path : String)
  | unsupportedFormat (path : String)
  | notFound (scope : String)
  deriving DecidableEq, Repr

namespace GrammarError

/-- The messages from the outermost to the innermost. -/
def chain : GrammarError → List String
  | .io path error =>
    ["failed to read grammar " ++ path ++ ": " ++ error.message, error.message]
  | .json path => ["failed to parse grammar " ++ path ++ ": <json>", "<json>"]
  | .missingScopeName path => ["grammar " ++ path ++ " has no scopeName"]
  | .unsupportedFormat path => ["only JSON grammars can be loaded: " ++ path]
  | .notFound scope => ["grammar not found: " ++ scope]

/-- The outermost message. -/
def message (e : GrammarError) : String :=
  e.chain.headD ""

end GrammarError

/-- Grammars by scope, with their loaded forms. -/
structure LoadedGrammars where
  /-- The grammars as they are now. -/
  current : Assoc Grammar := []
  /-- The grammars as they were loaded. -/
  pristine : Assoc Grammar := []
  /-- The files they were loaded from, each with whether it is spelt from the working directory. -/
  paths : List (Bool × Path) := []

namespace LoadedGrammars

/-- A path as one of those that are told apart: by its components, and by whether it starts with a
point. -/
def pathKey (path : String) : Bool × Path :=
  ((Text.split '/' path).head? == some ".", Path.ofText path)

/-- Adds a grammar, in place of one with its scope, and gives the loaded form of that. -/
def insert (l : LoadedGrammars) (g : Grammar) : Option Grammar × LoadedGrammars :=
  (Assoc.get? l.pristine g.scopeName,
    { l with
      current := Assoc.put l.current g.scopeName g
      pristine := Assoc.put l.pristine g.scopeName g })

/-- Reads the grammar in a file. -/
def readGrammar (read : JsonReader) (fs : FileSystem) (path : String) : Except GrammarError Grammar :=
  match fs.readText path with
  | .error e => .error (.io path e)
  | .ok text =>
    match (read text).bind Grammar.ofJson? with
    | none => .error (.json path)
    | some g => if g.scopeName = "" then .error (.missingScopeName path) else .ok g

/-- Loads a file and gives the scope of its grammar, or nothing if the file was loaded before. The path
counts as loaded once there is a grammar to insert. -/
def loadFile (l : LoadedGrammars) (read : JsonReader) (fs : FileSystem) (path : String) :
    Except GrammarError (Option String) × LoadedGrammars :=
  if (Path.ofText path).extension? ≠ some "json" then (.error (.unsupportedFormat path), l)
  else if l.paths.contains (pathKey path) then (.ok none, l)
  else
    match readGrammar read fs path with
    | .error e => (.error e, l)
    | .ok g =>
      let l := { l with paths := l.paths ++ [pathKey path] }
      let (_, l) := l.insert g
      (.ok (some g.scopeName), l)

/-- The grammar of a scope. -/
def get? (l : LoadedGrammars) (scope : String) : Option Grammar :=
  Assoc.get? l.current scope

/-- The loaded form of a grammar. -/
def pristine? (l : LoadedGrammars) (scope : String) : Option Grammar :=
  Assoc.get? l.pristine scope

/-- A grammar has this scope. -/
def contains (l : LoadedGrammars) (scope : String) : Bool :=
  Assoc.contains l.current scope

/-- Number of grammars. -/
def size (l : LoadedGrammars) : Nat :=
  l.current.length

/-- There is no grammar. -/
def isEmpty (l : LoadedGrammars) : Bool :=
  l.current.isEmpty

/-- The scopes of the grammars, in load order. -/
def scopes (l : LoadedGrammars) : List String :=
  Assoc.keys l.current

/-- Gives every grammar its loaded form back. -/
def reset (l : LoadedGrammars) : LoadedGrammars :=
  { l with current := l.pristine }

/-- Every scope that a grammar can give to a text, sorted. -/
def allScopes (l : LoadedGrammars) : List String :=
  SortedSet.ofList ((Assoc.values l.current).flatMap Grammar.scopes)

/-- The text of a grammar, laid out to be read. -/
def pretty (l : LoadedGrammars) (scope : String) : Except GrammarError String :=
  match l.get? scope with
  | none => .error (.notFound scope)
  | some g => .ok g.toJson.pretty

/-- The grammar says that it is for documents with this first line. A pattern that cannot be compiled
says nothing, and neither does one that cannot be matched. -/
def matchesFirstLine (engine : LineEngine) (g : Grammar) (firstLine : String) : Bool :=
  match g.firstLineMatch.bind engine with
  | none => false
  | some isMatch => (isMatch firstLine).getD false

/-- The grammar says that it is for documents with this path. -/
def matchesPath (g : Grammar) (path : String) : Bool :=
  g.fileTypes.any fun suffix => suffix.toList.isSuffixOf path.toList

/-- The grammar for a document: the first that is for its first line, else the first that is for its
path. -/
def choose (l : LoadedGrammars) (engine : LineEngine) (path firstLine : String) : Option String :=
  let found :=
    (l.current.find? fun b => matchesFirstLine engine b.2 firstLine).or
      (l.current.find? fun b => matchesPath b.2 path)
  found.map (·.1)

/-- Prunes every grammar, in load order. -/
def prune (l : LoadedGrammars) (keep : ScopeSet) : PruneSummary × LoadedGrammars :=
  let pass := PrunePass.run l.current keep l.scopes
  (pass.report, { l with current := pass.grammars })

/-- Prunes a grammar and all that it reaches through includes. -/
def pruneFrom (l : LoadedGrammars) (scope : String) (keep : ScopeSet) :
    Except GrammarError PruneSummary × LoadedGrammars :=
  if l.contains scope then
    let pass := PrunePass.run l.current keep [scope]
    (.ok pass.report, { l with current := pass.grammars })
  else (.error (.notFound scope), l)

end LoadedGrammars

end ScopeActions
