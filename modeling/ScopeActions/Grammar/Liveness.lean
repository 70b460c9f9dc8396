import ScopeActions.ScopeSet
import ScopeActions.Grammar.Rule

/-!
# Live rules

A rule is live when a scope to keep can come from it: from one of its own labels, from a live capture
rule, from a live child pattern, or from a live target of its include. Entries may include each other, so
the live ones among them are the least set that is closed under this rule; it is found in rounds, each
of which starts from what is known to be live.

The verdict on another grammar is asked for by an effect, since the answer may depend on a pass in
progress. Asking stops at the first thing that makes a rule live.
-/

namespace ScopeActions

/-- What the walks through one grammar know of the set it is in. -/
structure Surroundings (m : Type → Type) where
  keep : ScopeSet
  /-- The scopes of all grammars in the set. -/
  loaded : List String
  /-- Asks whether a grammar in the set is kept. -/
  decide : String → m Bool

namespace Surroundings

variable {m : Type → Type} [Monad m]

/-- Another grammar can give a scope to keep. Of one that is not loaded, its own scope decides. -/
def foreignLive (s : Surroundings m) (scope : String) : m Bool :=
  if s.loaded.contains scope then s.decide scope else pure (s.keep.contains scope)

end Surroundings

namespace Rule

variable {m : Type → Type} [Monad m]

/-- The target of the include is live, where `known` are the entries known to be live. -/
def inclusionLive (s : Surroundings m) (known : List String) : Option String → m Bool
  | none => pure false
  | some inclusion =>
    match Inclusion.parse inclusion with
    | .reserved => pure false
    | .entry name => pure (known.contains name)
    | .grammar scope => s.foreignLive scope

mutual

/-- The rule is live, where `known` are the entries known to be live. -/
def live (s : Surroundings m) (known : List String) : Rule → m Bool
  | .mk head patterns _ captures begins ends =>
    pure (s.keep.containsAny (head.name.toList ++ head.contentName.toList))
      <||> (match captures with
        | some rs => liveNamed s known rs
        | none => pure false)
      <||> (match begins with
        | some rs => liveNamed s known rs
        | none => pure false)
      <||> (match ends with
        | some rs => liveNamed s known rs
        | none => pure false)
      <||> (match patterns with
        | some rs => liveList s known rs
        | none => pure false)
      <||> inclusionLive s known head.inclusion

/-- One of the rules is live. -/
def liveList (s : Surroundings m) (known : List String) : List Rule → m Bool
  | [] => pure false
  | r :: rs => live s known r <||> liveList s known rs

/-- One of the rules of a map is live. -/
def liveNamed (s : Surroundings m) (known : List String) : List (String × Rule) → m Bool
  | [] => pure false
  | (_, r) :: rs => live s known r <||> liveNamed s known rs

end

/-- The entries included by the rule and by those beneath it, in the order of `visit`. -/
def entryInclusions (r : Rule) : List String :=
  (r.visit false).filterMap fun r =>
    match r.inclusion? with
    | some (.entry name) => some name
    | _ => none

end Rule

namespace Liveness

/-- Adds to the entries found so far those of the given names that are new. -/
def discover (entries : List (String × Rule)) (found names : List String) : List String :=
  names.foldl
    (fun found name =>
      if Assoc.contains entries name && !found.contains name then found ++ [name] else found)
    found

/-- Follows rules from the top of a stack, at most `n` of them; the entries that a rule leads to are
followed before what lies below it, the last one found first. -/
def follow (entries : List (String × Rule)) : Nat → List String → List Rule → List String
  | 0, found, _ => found
  | _, found, [] => found
  | n + 1, found, r :: stack =>
    let found' := discover entries found r.entryInclusions
    let fresh := (found'.drop found.length).filterMap (Assoc.get? entries)
    follow entries n found' (fresh.reverse ++ stack)

/-- The entries that the patterns lead to, in the order in which they are found. Every entry is followed
once. -/
def reachable (patterns : List Rule) (entries : List (String × Rule)) : List String :=
  follow entries (patterns.length + entries.length) [] patterns.reverse

variable {m : Type → Type} [Monad m]

/-- One round: adds the entries that are seen to be live to those known to be. What is found early in a
round counts for the rest of it. -/
def round (s : Surroundings m) (entries : List (String × Rule)) (known : List String) :
    List String → m (List String)
  | [] => pure known
  | name :: names =>
    if known.contains name then round s entries known names
    else
      match Assoc.get? entries name with
      | none => round s entries known names
      | some rule => do
        if ← rule.live s known then round s entries (known ++ [name]) names
        else round s entries known names

/-- Rounds until one finds nothing new, at most `n`. -/
def rounds (s : Surroundings m) (entries : List (String × Rule)) (names : List String) :
    Nat → List String → m (List String)
  | 0, known => pure known
  | n + 1, known => do
    let known' ← round s entries known names
    if known'.length = known.length then pure known' else rounds s entries names n known'

/-- The live ones among the given entries. Every round but the last finds one. -/
def liveEntries (s : Surroundings m) (entries : List (String × Rule)) (names : List String) :
    m (List String) :=
  rounds s entries names (names.length + 1) []

end Liveness

end ScopeActions
