import ScopeActions.Json.Value

/-!
# Rules and grammars

A grammar is a tree of rules. Only what decides which scopes a rule can give to a text is typed; all other
fields are carried along. A rule has children in its patterns, in the maps of its captures and in its
repository, whose entries other rules include by name.
-/

namespace ScopeActions

/-- The fields of a rule that hold no other rules. -/
structure RuleHead where
  name : Option String := none
  contentName : Option String := none
  /-- What the rule includes. -/
  inclusion : Option String := none
  /-- All fields that are not typed. -/
  extra : List (String × Json) := []

/-- A rule with everything beneath it. -/
inductive Rule where
  | mk (head : RuleHead) (patterns : Option (List Rule))
      (repository captures beginCaptures endCaptures : Option (List (String × Rule)))

namespace Rule

/-- A rule that says nothing. -/
def blank : Rule := .mk {} none none none none none

instance : Inhabited Rule := ⟨blank⟩

/-- The fields that hold no rules. -/
def head : Rule → RuleHead
  | .mk head _ _ _ _ _ => head

/-- The child patterns. -/
def patterns : Rule → Option (List Rule)
  | .mk _ patterns _ _ _ _ => patterns

/-- The entries that can be included by name. -/
def repository : Rule → Option (List (String × Rule))
  | .mk _ _ repository _ _ _ => repository

/-- The rules of capture groups. -/
def captures : Rule → Option (List (String × Rule))
  | .mk _ _ _ captures _ _ => captures

/-- The rules of the capture groups of a beginning. -/
def beginCaptures : Rule → Option (List (String × Rule))
  | .mk _ _ _ _ beginCaptures _ => beginCaptures

/-- The rules of the capture groups of an end. -/
def endCaptures : Rule → Option (List (String × Rule))
  | .mk _ _ _ _ _ endCaptures => endCaptures

/-- A rule that only gives a name. -/
def named (name : String) : Rule := .mk { name := some name } none none none none none

/-- A rule that only includes something. -/
def including (inclusion : String) : Rule :=
  .mk { inclusion := some inclusion } none none none none none

/-- The names that the rule itself gives to a text. -/
def labels (r : Rule) : List String :=
  r.head.name.toList ++ r.head.contentName.toList

/-- The capture maps that the rule has. -/
def captureGroups (r : Rule) : List (List (String × Rule)) :=
  [r.captures, r.beginCaptures, r.endCaptures].filterMap id

mutual

/-- The rule and every rule beneath it, each before those beneath it: patterns first, then captures, and
last, where wanted, repositories. -/
def visit (repositories : Bool) : Rule → List Rule
  | .mk head patterns repository captures begins ends =>
    .mk head patterns repository captures begins ends
      :: ((match patterns with
          | some rs => visitList repositories rs
          | none => [])
        ++ (match captures with
          | some rs => visitNamed repositories rs
          | none => [])
        ++ (match begins with
          | some rs => visitNamed repositories rs
          | none => [])
        ++ (match ends with
          | some rs => visitNamed repositories rs
          | none => [])
        ++ (match repository with
          | some rs => if repositories then visitNamed repositories rs else []
          | none => []))

/-- `visit` on a list of rules. -/
def visitList (repositories : Bool) : List Rule → List Rule
  | [] => []
  | r :: rs => visit repositories r ++ visitList repositories rs

/-- `visit` on the values of a map. -/
def visitNamed (repositories : Bool) : List (String × Rule) → List Rule
  | [] => []
  | (_, r) :: rs => visit repositories r ++ visitNamed repositories rs

end

end Rule

/-- What an include refers to. -/
inductive Inclusion where
  /-- The grammar itself, or the one it is used in. -/
  | reserved
  /-- An entry of the repository of the grammar. -/
  | entry (name : String)
  /-- Another grammar. A part of one counts as the whole. -/
  | grammar (scope : String)
  deriving DecidableEq, Repr

namespace Inclusion

/-- Reads an include. -/
def parse (s : String) : Inclusion :=
  match s.toList with
  | '$' :: _ => .reserved
  | '#' :: name => .entry (String.ofList name)
  | cs => .grammar (String.ofList (cs.takeWhile (· != '#')))

end Inclusion

/-- What the rule itself includes. -/
def Rule.inclusion? (r : Rule) : Option Inclusion :=
  r.head.inclusion.map Inclusion.parse

/-- A grammar. The patterns and the repository of its root are the grammar's; the name of the root is for
display and no scope. -/
structure Grammar where
  scopeName : String := ""
  fileTypes : List String := []
  firstLineMatch : Option String := none
  root : Rule := .blank
  deriving Inhabited

namespace Grammar

/-- A grammar with patterns and nothing else. -/
def ofPatterns (scopeName : String) (patterns : List Rule) : Grammar :=
  { scopeName, root := .mk {} (some patterns) none none none none }

/-- The root patterns. -/
def patterns (g : Grammar) : List Rule :=
  g.root.patterns.getD []

/-- The entries of the repository. -/
def entries (g : Grammar) : List (String × Rule) :=
  g.root.repository.getD []

/-- Adds an entry to the repository, in place of one with that name. -/
def addEntry (g : Grammar) (name : String) (rule : Rule) : Grammar :=
  match g.root with
  | .mk head patterns repository captures begins ends =>
    let entries := Assoc.put (repository.getD []) name rule
    { g with root := .mk head patterns (some entries) captures begins ends }

/-- The rules of the patterns and entries and all beneath them, those in nested repositories where
wanted. -/
def rules (g : Grammar) (repositories : Bool) : List Rule :=
  Rule.visitList repositories g.patterns ++ Rule.visitNamed repositories g.entries

/-- Every scope the grammar can give to a text: its own, then the labels of its rules. -/
def scopes (g : Grammar) : List String :=
  g.scopeName :: (g.rules true).flatMap Rule.labels

end Grammar

end ScopeActions
