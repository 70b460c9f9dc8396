import ScopeActions.Registry
import ScopeActions.World

/-!
# Collecting actions

Actions that gather the tokens of a scope in a structure of the same name, and the actions that every
registry of a run starts with.
-/

namespace ScopeActions

namespace Collector

variable {ε : Type}

/-- Appends the tokens of a call to the structure named by its scope, which is a list. -/
def collect (c : Call) (w : World ε) : World ε × Completion :=
  let key := c.scope.text
  let updated := Store.update w.structures key (.arr []) fun v =>
    match v with
    | .arr items => (.arr (items ++ c.tokens.map Json.str), Except.ok ())
    | v => (v, .error (.failed ("structure '" ++ key ++ "' is not a list")))
  ({ w with structures := updated.1 }, updated.2)

/-- The action that collects the tokens of its scope. -/
def collector : Handler (World ε) := fun c => .once (collect c)

/-- What collectors are registered by. -/
def collectorSource : String := "tmgt --collect"

/-- Registers a collector for each scope. -/
def withCollectors (r : Registry (Handler (World ε))) (scopes : List String) :
    Except RegistrationError Unit × Registry (Handler (World ε)) :=
  r.registerAll (scopes.map fun scope => (scope, collectorSource, collector))

/-- The action that stores the files of a run. -/
def recordFiles : Handler (World ε) := fun c =>
  .once fun w => (w.store "files" (.strings c.tokens), .ok ())

/-- The action that ends a run. -/
def reportEnd : Handler (World ε) := fun _ => .once fun w => (w, .ok ())

/-- What the built-in actions are registered by. -/
def builtinSource : String := "tmgt::collect"

/-- The built-in actions, in the order of their names within their source. -/
def builtins : List (String × String × Handler (World ε)) :=
  [("run.tmgt.files", builtinSource, recordFiles), ("finalize.tmgt.report", builtinSource, reportEnd)]

/-- The registry that a run starts with. -/
def startRegistry : Except RegistrationError (Registry (Handler (World ε))) :=
  match Registry.registerAll .empty builtins with
  | (.ok (), r) => .ok r
  | (.error e, _) => .error e

end Collector

end ScopeActions
