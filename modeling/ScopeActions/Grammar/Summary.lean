import ScopeActions.Json.Value

/-!
# Summaries of pruning

What a pruning pass decided, how much it removed, and which includes it could not follow.
-/

namespace ScopeActions

/-- Why an include is not followed. -/
inductive DiagnosticKind where
  /-- It means the grammar itself, or the one that uses it. -/
  | reservedInclude
  /-- The repository has no such entry. -/
  | missingEntry
  /-- There is no such grammar. -/
  | unknownGrammar
  deriving DecidableEq, Repr

/-- The name of a kind in reports. -/
def DiagnosticKind.name : DiagnosticKind → String
  | .reservedInclude => "unsafe-include"
  | .missingEntry => "missing-repository-entry"
  | .unknownGrammar => "unknown-grammar"

/-- An include that pruning does not follow. -/
structure Diagnostic where
  kind : DiagnosticKind
  /-- The scope of the grammar that the include stands in. -/
  grammar : String
  /-- The include as it is written. -/
  inclusion : String
  deriving DecidableEq, Repr

namespace Diagnostic

/-- The wording of a diagnostic. -/
def message (d : Diagnostic) : String :=
  let wording :=
    match d.kind with
    | .reservedInclude => (": unsafe include '", "' treated as not kept")
    | .missingEntry => (": include '", "' has no repository entry")
    | .unknownGrammar => (": include '", "' names an unknown grammar")
  d.grammar ++ wording.1 ++ d.inclusion ++ wording.2

/-- Writes a diagnostic. -/
def toJson (d : Diagnostic) : Json :=
  .obj [("kind", .str d.kind.name), ("grammar", .str d.grammar), ("include", .str d.inclusion)]

end Diagnostic

/-- What a pruning pass did. -/
structure PruneSummary where
  /-- The grammars that can give a scope to keep, in the order in which this was decided. -/
  kept : List String := []
  /-- The other grammars that were decided, in that order. -/
  dropped : List String := []
  /-- Number of patterns taken out of their lists. -/
  removedPatterns : Nat := 0
  /-- Number of repository entries deleted. -/
  removedEntries : Nat := 0
  /-- Each diagnostic once, in the order in which they arose. -/
  diagnostics : List Diagnostic := []
  deriving DecidableEq, Repr

namespace PruneSummary

/-- What was decided about a grammar, if anything was. -/
def verdict? (r : PruneSummary) (scope : String) : Option Bool :=
  if r.kept.contains scope then some true
  else if r.dropped.contains scope then some false
  else none

/-- Nothing was removed. -/
def isNoop (r : PruneSummary) : Bool :=
  r.removedPatterns == 0 && r.removedEntries == 0

/-- Records the verdict on a grammar. -/
def decided (r : PruneSummary) (scope : String) (verdict : Bool) : PruneSummary :=
  if verdict then { r with kept := r.kept ++ [scope] }
  else { r with dropped := r.dropped ++ [scope] }

/-- Records a diagnostic, unless it is there already. -/
def diagnosed (r : PruneSummary) (d : Diagnostic) : PruneSummary :=
  if r.diagnostics.contains d then r else { r with diagnostics := r.diagnostics ++ [d] }

/-- Counts what was removed. -/
def removed (r : PruneSummary) (patterns entries : Nat) : PruneSummary :=
  { r with
    removedPatterns := r.removedPatterns + patterns
    removedEntries := r.removedEntries + entries }

/-- Writes a report. -/
def toJson (r : PruneSummary) : Json :=
  .obj [("kept", .strings r.kept), ("dropped", .strings r.dropped),
    ("removed_patterns", .nat r.removedPatterns),
    ("removed_repository_entries", .nat r.removedEntries),
    ("diagnostics", .arr (r.diagnostics.map Diagnostic.toJson))]

end PruneSummary

end ScopeActions
