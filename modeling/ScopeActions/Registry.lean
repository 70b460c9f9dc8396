import ScopeActions.Assoc
import ScopeActions.Scope
import ScopeActions.Text.Quoted

/-!
# The registry of actions

Actions are kept in a trie over the segments of their scopes. A node at the end of a registered path
holds the scope and the actions registered on it, in order of registration; other nodes hold none.
Look-ups walk down a path, so the actions of all ancestors of a scope are met on the way, and the actions
of all scopes below a prefix are those of one subtree.
-/

namespace ScopeActions

/-- How a scope finds its actions. -/
inductive Resolution where
  /-- The actions of the scope itself. -/
  | exact
  /-- The actions of the nearest of the scope and its ancestors that has any. -/
  | mostSpecific
  /-- The actions of the scope and all its ancestors, nearest first. -/
  | allAncestors
  deriving DecidableEq, Repr

/-- The name of a policy in configuration files and on the command line. -/
def Resolution.name : Resolution → String
  | .exact => "exact"
  | .mostSpecific => "most-specific"
  | .allAncestors => "all-ancestors"

/-- The policy with the given name. -/
def Resolution.ofName? (name : String) : Option Resolution :=
  [Resolution.exact, .mostSpecific, .allAncestors].find? (·.name == name)

/-- A registered action. -/
structure Entry (η : Type) where
  scope : Scope
  source : String
  handler : η

/-- The actions of one scope. -/
structure ActionGroup (η : Type) where
  scope : Scope
  entries : List (Entry η)

/-- Why an action could not be registered. -/
structure RegistrationError where
  scope : String
  source : String
  cause : ScopeError
  deriving DecidableEq, Repr

/-- The wording of a registration error. -/
def RegistrationError.message (e : RegistrationError) : String :=
  "invalid scope '" ++ e.scope ++ "' registered by " ++ e.source ++ ": " ++ e.cause.message

/-- A node of the trie and everything below it. -/
inductive Trie (η : Type) where
  | mk (key : Option Scope) (entries : List (Entry η)) (children : List (String × Trie η))

namespace Trie

variable {η : Type}

/-- A node that holds nothing. -/
def empty : Trie η := .mk none [] []

/-- The scope of a node that actions are registered on. -/
def key : Trie η → Option Scope
  | .mk key _ _ => key

/-- The actions registered on the node itself. -/
def entries : Trie η → List (Entry η)
  | .mk _ entries _ => entries

/-- The nodes one segment further. -/
def children : Trie η → List (String × Trie η)
  | .mk _ _ children => children

/-- The actions of the node with their scope, if there are any. -/
def match? (n : Trie η) : Option (ActionGroup η) :=
  match n.key, n.entries with
  | some scope, e :: es => some ⟨scope, e :: es⟩
  | _, _ => none

/-- The node at the end of a path. -/
def find? : List String → Trie η → Option (Trie η)
  | [], n => some n
  | s :: path, n => (Assoc.get? n.children s).bind (find? path)

/-- Appends an action at the end of a path, making the nodes that are missing. -/
def insert (e : Entry η) : List String → Trie η → Trie η
  | [], .mk key entries children => .mk (some (key.getD e.scope)) (entries ++ [e]) children
  | s :: path, .mk key entries children =>
    let child := (Assoc.get? children s).getD empty
    .mk key entries (Assoc.put children s (insert e path child))

/-- The actions met on a path, outermost first, the start not counted. -/
def along : List String → Trie η → List (ActionGroup η)
  | [], _ => []
  | s :: path, n =>
    match Assoc.get? n.children s with
    | none => []
    | some child => child.match?.toList ++ along path child

mutual

/-- The actions of the node and of all nodes below it. -/
def collect : Trie η → List (ActionGroup η)
  | .mk key entries children =>
    (Trie.mk key entries []).match?.toList ++ collectChildren children

/-- The actions of all nodes below the given children. -/
def collectChildren : List (String × Trie η) → List (ActionGroup η)
  | [] => []
  | (_, child) :: children => collect child ++ collectChildren children

end

end Trie

/-- Actions by scope. -/
structure Registry (η : Type) where
  root : Trie η := .empty
  /-- Number of scopes that have actions. -/
  scopeCount : Nat := 0
  /-- Number of actions. -/
  size : Nat := 0

namespace Registry

variable {η : Type}

/-- The registry without actions. -/
def empty : Registry η := {}

/-- Registers an action on a scope, after those that are there. -/
def register (r : Registry η) (scope source : String) (handler : η) :
    Except RegistrationError (Entry η) × Registry η :=
  match Scope.parse scope with
  | .error cause => (.error { scope, source, cause }, r)
  | .ok key =>
    let entry : Entry η := { scope := key, source, handler }
    let known := match r.root.find? key.segments with
      | some n => !n.entries.isEmpty
      | none => false
    (.ok entry, {
      root := r.root.insert entry key.segments
      scopeCount := if known then r.scopeCount else r.scopeCount + 1
      size := r.size + 1 })

/-- Registers actions in order, up to the first that fails. Those before it stay registered. -/
def registerAll (r : Registry η) : List (String × String × η) → Except RegistrationError Unit × Registry η
  | [] => (.ok (), r)
  | (scope, source, handler) :: actions =>
    match r.register scope source handler with
    | (.error e, r) => (.error e, r)
    | (.ok _, r) => r.registerAll actions

/-- The actions of the scope itself; nothing if there are none. -/
def find? (r : Registry η) (k : Scope) : Option (List (Entry η)) :=
  ((r.root.find? k.segments).bind Trie.match?).map (·.entries)

/-- The actions of the scope and its ancestors, nearest first. -/
def ancestors (r : Registry η) (k : Scope) : List (ActionGroup η) :=
  (r.root.along k.segments).reverse

/-- The actions of all scopes that start with the segments of a text, in the order of their scopes. The
empty text stands for all scopes; one that is no scope, for none. -/
def scan (r : Registry η) (start : String) : List (ActionGroup η) :=
  let node :=
    if start = "" then some r.root
    else (Scope.parse? start).bind fun k => r.root.find? k.segments
  let found := (node.map Trie.collect).getD []
  found.mergeSort fun a b => decide (a.scope.text ≤ b.scope.text)

/-- The actions that a scope finds under a policy. -/
def resolve (r : Registry η) (k : Scope) : Resolution → List (ActionGroup η)
  | .exact => ((r.root.find? k.segments).bind Trie.match?).toList
  | .mostSpecific => (r.ancestors k).take 1
  | .allAncestors => r.ancestors k

/-- A scope finds some action under a policy. -/
def finds (r : Registry η) (k : Scope) : Resolution → Bool
  | .exact => (r.find? k).isSome
  | .mostSpecific | .allAncestors => !(r.ancestors k).isEmpty

/-- Every scope that has actions, in order. -/
def scopes (r : Registry η) : List Scope :=
  (r.scan "").map (·.scope)

/-- Every action, by scope and then by registration. -/
def entries (r : Registry η) : List (Entry η) :=
  (r.scan "").flatMap (·.entries)

/-- No action is registered. -/
def isEmpty (r : Registry η) : Bool :=
  r.size == 0

/-- The form in which a registry is shown to a developer: each scope with its number of actions. -/
def debug (r : Registry η) : String :=
  let item (m : ActionGroup η) : String :=
    Text.quote m.scope.text ++ ": " ++ toString m.entries.length
  "\x7b" ++ String.intercalate ", " ((r.scan "").map item) ++ "\x7d"

end Registry

/-- The form in which an action is shown to a developer. -/
def Entry.debug {η : Type} (e : Entry η) : String :=
  "ActionEntry \x7b scope: " ++ e.scope.debug ++ ", source_id: " ++ Text.quote e.source ++ ", .. \x7d"

end ScopeActions
