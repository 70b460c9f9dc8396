import ScopeActions.Grammar.Liveness
import ScopeActions.Grammar.Summary

/-!
# Pruning

Pruning takes away every pattern that cannot give a scope to keep, and every repository entry that
nothing left over includes. A grammar is kept when its own scope is to be kept or when a root pattern is
left. Grammars may include each other: one that is reached again while it is being pruned answers with
whether its own scope is to be kept.

`$self` and `$base` are never followed; they are reported and count as not live.
-/

namespace ScopeActions

/-- How far the walk through the rules of one grammar has come. -/
structure PruneWalk where
  /-- The entries included by what is left over so far. -/
  marked : List String := []
  /-- Those of them whose rules are still to be walked, the last one marked first. -/
  pending : List String := []
  /-- Number of patterns removed. -/
  removed : Nat := 0

namespace PruneWalk

/-- Marks an entry; one that is new becomes pending. -/
def mark (w : PruneWalk) (name : String) : PruneWalk :=
  if w.marked.contains name then w
  else { w with marked := w.marked ++ [name], pending := name :: w.pending }

/-- Counts removed patterns. -/
def remove (w : PruneWalk) (n : Nat) : PruneWalk :=
  { w with removed := w.removed + n }

end PruneWalk

/-- What the walk through the rules of one grammar goes by. -/
structure PruneContext (m : Type → Type) where
  surroundings : Surroundings m
  /-- The scope of the grammar. -/
  grammar : String
  /-- The names of its entries. -/
  entries : List String
  /-- The live ones of its reachable entries. -/
  live : List String
  /-- Reports an include that is not followed. -/
  diagnose : Diagnostic → m Unit

namespace Rule

variable {m : Type → Type} [Monad m]

/-- Reports an include and counts it as not live. -/
def reject (c : PruneContext m) (kind : DiagnosticKind) (inclusion : String) :
    StateT PruneWalk m Bool := do
  c.diagnose { kind, grammar := c.grammar, inclusion }
  return false

/-- Decides an include, and marks the entry it includes. -/
def keepInclusion (c : PruneContext m) : Option String → StateT PruneWalk m Bool
  | none => pure false
  | some inclusion =>
    match Inclusion.parse inclusion with
    | .reserved => reject c .reservedInclude inclusion
    | .entry name =>
      if !c.entries.contains name then reject c .missingEntry inclusion
      else if !c.live.contains name then pure false
      else do
        modify (·.mark name)
        return true
    | .grammar scope =>
      if c.surroundings.loaded.contains scope then c.surroundings.decide scope
      else if c.surroundings.keep.contains scope then pure true
      else reject c .unknownGrammar inclusion

mutual

/-- Decides a rule and prunes what is beneath it: captures first, then patterns. -/
def prune (c : PruneContext m) : Rule → StateT PruneWalk m (Bool × Rule)
  | .mk head patterns repository captures begins ends => do
    let (live₁, captures) ←
      match captures with
      | none => pure (false, none)
      | some rs => do
        let (live, rs) ← pruneNamed c rs
        pure (live, some rs)
    let (live₂, begins) ←
      match begins with
      | none => pure (false, none)
      | some rs => do
        let (live, rs) ← pruneNamed c rs
        pure (live, some rs)
    let (live₃, ends) ←
      match ends with
      | none => pure (false, none)
      | some rs => do
        let (live, rs) ← pruneNamed c rs
        pure (live, some rs)
    let (live₄, patterns) ←
      match patterns with
      | none => pure (false, none)
      | some rs => do
        let rs' ← pruneList c rs
        modify (·.remove (rs.length - rs'.length))
        pure (!rs'.isEmpty, some rs')
    let live₅ ← keepInclusion c head.inclusion
    let labelled := c.surroundings.keep.containsAny (head.name.toList ++ head.contentName.toList)
    return (labelled || live₁ || live₂ || live₃ || live₄ || live₅,
      .mk head patterns repository captures begins ends)

/-- Prunes the rules of a list and leaves the live ones. -/
def pruneList (c : PruneContext m) : List Rule → StateT PruneWalk m (List Rule)
  | [] => pure []
  | r :: rs => do
    let (live, r) ← prune c r
    let rs ← pruneList c rs
    return if live then r :: rs else rs

/-- Prunes the rules of a map, of which all stay, and tells whether one is live. -/
def pruneNamed (c : PruneContext m) :
    List (String × Rule) → StateT PruneWalk m (Bool × List (String × Rule))
  | [] => pure (false, [])
  | (key, r) :: rs => do
    let (live, r) ← prune c r
    let (live', rs) ← pruneNamed c rs
    return (live || live', (key, r) :: rs)

end

end Rule

namespace PruneWalk

variable {m : Type → Type} [Monad m]

/-- Prunes the entries that are pending, and those that become so, at most `n`. -/
def drain (c : PruneContext m) : Nat → List (String × Rule) → StateT PruneWalk m (List (String × Rule))
  | 0, entries => pure entries
  | n + 1, entries => do
    match (← get).pending with
    | [] => pure entries
    | name :: pending =>
      modify fun w => { w with pending }
      match Assoc.get? entries name with
      | none => drain c n entries
      | some rule =>
        let (_, rule) ← rule.prune c
        drain c n (Assoc.put entries name rule)

end PruneWalk

/-- A grammar after its own pruning. -/
structure PrunedGrammar where
  grammar : Grammar
  /-- A root pattern is left over. -/
  patternsLeft : Bool
  removedPatterns : Nat := 0
  removedEntries : Nat := 0

namespace Grammar

variable {m : Type → Type} [Monad m]

/-- Prunes the rules of one grammar. One without root patterns stays as it is. -/
def pruneRules (s : Surroundings m) (diagnose : Diagnostic → m Unit) (g : Grammar) :
    m PrunedGrammar :=
  match g.root with
  | .mk _ none _ _ _ _ => pure { grammar := g, patternsLeft := false }
  | .mk head (some patterns) repository captures begins ends => do
    let entries := repository.getD []
    let live ← Liveness.liveEntries s entries (Liveness.reachable patterns entries)
    let context : PruneContext m :=
      { surroundings := s, grammar := g.scopeName, entries := Assoc.keys entries, live, diagnose }
    let walk : StateT PruneWalk m (List Rule × List (String × Rule)) := do
      let patterns ← Rule.pruneList context patterns
      let entries ← PruneWalk.drain context entries.length entries
      return (patterns, entries)
    let ((patterns', entries'), w) ← walk.run {}
    let left := entries'.filter fun e => w.marked.contains e.1
    let root : Rule := .mk head (some patterns') (repository.map fun _ => left) captures begins ends
    return {
      grammar := { g with root }
      patternsLeft := !patterns'.isEmpty
      removedPatterns := w.removed + (patterns.length - patterns'.length)
      removedEntries := entries.length - left.length }

end Grammar

/-- A pruning pass over a set of grammars. -/
structure PrunePass where
  grammars : Assoc Grammar
  /-- The grammars whose pruning has begun. -/
  visited : List String := []
  report : PruneSummary := {}

namespace PrunePass

/-- Reports an include that is not followed. -/
def diagnose (d : Diagnostic) : StateM PrunePass Unit :=
  modify fun p => { p with report := p.report.diagnosed d }

/-- A grammar is done: stores it and records the verdict on it. -/
def finish (scope : String) (pruned : PrunedGrammar) (verdict : Bool) (p : PrunePass) : PrunePass :=
  { p with
    grammars := Assoc.put p.grammars scope pruned.grammar
    report := (p.report.removed pruned.removedPatterns pruned.removedEntries).decided scope verdict }

/-- Decides a grammar, pruning it when it is first reached. At most `n` grammars are begun inside each
other; no more than there are in the set can be. -/
def decide (keep : ScopeSet) : Nat → String → StateM PrunePass Bool
  | 0, scope => do
    return ((← get).report.verdict? scope).getD (keep.contains scope)
  | n + 1, scope => do
    let pass ← get
    match pass.report.verdict? scope with
    | some verdict => return verdict
    | none =>
      if pass.visited.contains scope then return keep.contains scope
      match Assoc.get? pass.grammars scope with
      | none => return keep.contains scope
      | some g =>
        set { pass with visited := pass.visited ++ [scope] }
        let surroundings : Surroundings (StateM PrunePass) :=
          { keep, loaded := Assoc.keys pass.grammars, decide := decide keep n }
        let pruned ← g.pruneRules surroundings diagnose
        let verdict := keep.contains scope || pruned.patternsLeft
        modify (finish scope pruned verdict)
        return verdict

/-- Decides grammars one after the other. -/
def decideAll (keep : ScopeSet) (n : Nat) : List String → StateM PrunePass Unit
  | [] => pure ()
  | scope :: scopes => do
    let _ ← decide keep n scope
    decideAll keep n scopes

/-- A pass over a set that decides the given grammars and all that they include. -/
def run (grammars : Assoc Grammar) (keep : ScopeSet) (scopes : List String) : PrunePass :=
  ((decideAll keep grammars.length scopes).run { grammars }).2

end PrunePass

end ScopeActions
