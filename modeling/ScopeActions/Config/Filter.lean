import ScopeActions.Config.Setting

/-!
# Trace filters

A filter has patterns to include and patterns to exclude. Exclusion wins; without patterns to include,
everything is admitted that is not excluded. What a pattern matches is for an engine to say.
-/

namespace ScopeActions

/-- A compiled pattern, which says of a text whether it matches somewhere. -/
abbrev Pattern := String → Bool

/-- What compiles patterns, and gives nothing for one that it cannot compile. -/
abbrev PatternEngine := String → Option Pattern

/-- The patterns of a filter as they are written. -/
structure FilterPatterns where
  includes : List String := []
  excludes : List String := []
  deriving DecidableEq, Repr

/-- A pattern that cannot be compiled. -/
structure PatternError where
  pattern : String
  deriving DecidableEq, Repr

/-- A compiled filter. -/
structure PatternFilter where
  includes : List Pattern := []
  excludes : List Pattern := []

namespace PatternFilter

/-- The filter lets the text pass. -/
def admits (f : PatternFilter) (text : String) : Bool :=
  if f.excludes.any (· text) then false
  else f.includes.isEmpty || f.includes.any (· text)

end PatternFilter

namespace FilterPatterns

/-- Reads the patterns of a filter. -/
def ofSetting? (s : Setting) : Option FilterPatterns := do
  let group ← s.members? ["include", "exclude"]
  let includes ← Setting.member? Setting.texts? [] group "include"
  let excludes ← Setting.member? Setting.texts? [] group "exclude"
  return { includes, excludes }

/-- Compiles patterns, up to the first that cannot be. -/
def compileAll (engine : PatternEngine) : List String → Except PatternError (List Pattern)
  | [] => .ok []
  | pattern :: patterns =>
    match engine pattern with
    | none => .error { pattern }
    | some p =>
      match compileAll engine patterns with
      | .error e => .error e
      | .ok ps => .ok (p :: ps)

/-- Compiles a filter: first what to include, then what to exclude. -/
def compile (s : FilterPatterns) (engine : PatternEngine) : Except PatternError PatternFilter := do
  let includes ← compileAll engine s.includes
  let excludes ← compileAll engine s.excludes
  return { includes, excludes }

end FilterPatterns

/-- The filters of a trace as they are written. -/
structure TracePatterns where
  lines : FilterPatterns := {}
  scopes : FilterPatterns := {}
  actions : FilterPatterns := {}
  structures : FilterPatterns := {}
  deriving DecidableEq, Repr

/-- The compiled filters of a trace. -/
structure TraceFilterSet where
  lines : PatternFilter := {}
  scopes : PatternFilter := {}
  actions : PatternFilter := {}
  structures : PatternFilter := {}

namespace TracePatterns

/-- Reads the filters of a trace. -/
def ofSetting? (s : Setting) : Option TracePatterns := do
  let group ← s.members? ["lines", "scopes", "actions", "structures"]
  let lines ← Setting.member? FilterPatterns.ofSetting? {} group "lines"
  let scopes ← Setting.member? FilterPatterns.ofSetting? {} group "scopes"
  let actions ← Setting.member? FilterPatterns.ofSetting? {} group "actions"
  let structures ← Setting.member? FilterPatterns.ofSetting? {} group "structures"
  return { lines, scopes, actions, structures }

/-- Compiles the filters in their order. -/
def compile (s : TracePatterns) (engine : PatternEngine) : Except PatternError TraceFilterSet := do
  let lines ← s.lines.compile engine
  let scopes ← s.scopes.compile engine
  let actions ← s.actions.compile engine
  let structures ← s.structures.compile engine
  return { lines, scopes, actions, structures }

end TracePatterns

end ScopeActions
