import ScopeActions.Config.Filter
import ScopeActions.Dispatch.Bucket
import ScopeActions.Json.Printer
import ScopeActions.Store
import ScopeActions.Text.Quoted

/-!
# Traces

What a tracer tells of a run. A line is traced when the filter of lines admits its text; the scopes,
actions and structures on it are traced when their own filters admit their names. A tracer without
filters tells nothing.
-/

namespace ScopeActions

/-- Something that a tracer tells. -/
inductive TraceEvent where
  /-- A line is dispatched. -/
  | line (number : Nat) (text : String)
  /-- A token on a traced line, with those of its scopes that are admitted. -/
  | token (number start stop : Nat) (text : String) (scopes : List String)
  /-- The actions of a scope are about to run on the texts of its bucket. -/
  | actions (number : Nat) (scope : String) (texts : List String)
  /-- The value of a structure after actions have run. -/
  | value (name : String) (json : Json)

/-- Writes an event. -/
def TraceEvent.toJson : TraceEvent → Json
  | .line number text =>
    .obj [("event", .str "tokenizing line"), ("line", .nat number),
      ("len", .nat text.utf8ByteSize), ("text", .str text)]
  | .token number start stop text scopes =>
    .obj [("event", .str "token"), ("line", .nat number), ("start", .nat start),
      ("end", .nat stop), ("text", .str text), ("scopes", .str (Text.quoteList scopes))]
  | .actions number scope texts =>
    .obj [("event", .str "running actions"), ("line", .nat number), ("scope", .str scope),
      ("tokens", .str (Text.quoteList texts))]
  | .value name json =>
    .obj [("event", .str "structure"), ("structure", .str name), ("json", .str json.render)]

/-- Tells of a run what the filters admit; nothing without filters. -/
structure Tracer where
  filters : Option TraceFilterSet := none

namespace Tracer

/-- The tracer that tells nothing. -/
def disabled : Tracer := {}

/-- The tracer with the given filters. -/
def ofFilters (filters : TraceFilterSet) : Tracer :=
  { filters := some filters }

/-- The tracer has filters. -/
def isEnabled (t : Tracer) : Bool :=
  t.filters.isSome

/-- A line with this text is traced. -/
def admitsLine (t : Tracer) (text : String) : Bool :=
  match t.filters with
  | none => false
  | some f => f.lines.admits text

/-- The actions of a scope are traced on a traced line. -/
def admitsActions (t : Tracer) (scope : String) : Bool :=
  match t.filters with
  | none => false
  | some f => f.scopes.admits scope && f.actions.admits scope

/-- What is told of a line before its actions run. -/
def lineEvents (t : Tracer) (number : Nat) (text : String) (tokens : List Token) :
    List TraceEvent :=
  match t.filters with
  | none => []
  | some f =>
    if f.lines.admits text then
      .line number text :: tokens.map fun k =>
        .token number k.start k.stop (k.text text) (k.scopes.filter f.scopes.admits)
    else []

/-- What is told of a bucket before its actions run. -/
def bucketEvent (number : Nat) (b : Bucket) : TraceEvent :=
  .actions number b.scope.text b.texts

/-- What is told of the store after actions have run. -/
def storeEvents (t : Tracer) (s : Store) : List TraceEvent :=
  match t.filters with
  | none => []
  | some f => (s.filter fun b => f.structures.admits b.1).map fun b => .value b.1 b.2

end Tracer

end ScopeActions
