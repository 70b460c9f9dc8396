import ScopeActions.Grammar.Rule

/-!
# Grammars as JSON

A rule is an object. Its typed fields are written in a fixed order and then all others in the order they
have; a typed field that is absent is left out. When a rule is read, a typed field may stand once, and
`null` counts as absent. Other fields, entries and capture groups may be repeated: the last value counts,
at the place of the first.
-/

namespace ScopeActions

/-- An optional field. -/
def Json.optional (name : String) : Option Json → List (String × Json)
  | none => []
  | some v => [(name, v)]

namespace Rule

/-- The names of the typed fields of a rule. -/
def typedFields : List String :=
  ["name", "contentName", "include", "patterns", "repository", "captures", "beginCaptures",
    "endCaptures"]

mutual

/-- Writes a rule. -/
def toJson : Rule → Json
  | r => .obj (toFields r)

/-- The fields of a rule. -/
def toFields : Rule → List (String × Json)
  | .mk head patterns repository captures begins ends =>
    Json.optional "name" (head.name.map Json.str)
      ++ Json.optional "contentName" (head.contentName.map Json.str)
      ++ Json.optional "include" (head.inclusion.map Json.str)
      ++ (match patterns with
        | some rs => [("patterns", Json.arr (toItems rs))]
        | none => [])
      ++ (match repository with
        | some rs => [("repository", Json.obj (toEntries rs))]
        | none => [])
      ++ (match captures with
        | some rs => [("captures", Json.obj (toEntries rs))]
        | none => [])
      ++ (match begins with
        | some rs => [("beginCaptures", Json.obj (toEntries rs))]
        | none => [])
      ++ (match ends with
        | some rs => [("endCaptures", Json.obj (toEntries rs))]
        | none => [])
      ++ head.extra

/-- Writes a list of rules. -/
def toItems : List Rule → List Json
  | [] => []
  | r :: rs => .obj (toFields r) :: toItems rs

/-- Writes a map of rules. -/
def toEntries : List (String × Rule) → List (String × Json)
  | [] => []
  | (key, r) :: rs => (key, .obj (toFields r)) :: toEntries rs

end

/-- A text that may be absent. -/
def optionalText? : Json → Option (Option String)
  | .null => some none
  | .str s => some (some s)
  | _ => none

/-- Sets one of the typed fields that hold a text. -/
def setText (r : Rule) (key : String) (text : Option String) : Rule :=
  match r with
  | .mk head patterns repository captures begins ends =>
    let head :=
      if key = "name" then { head with name := text }
      else if key = "contentName" then { head with contentName := text }
      else { head with inclusion := text }
    .mk head patterns repository captures begins ends

/-- Sets the patterns. -/
def setPatterns (r : Rule) (rs : Option (List Rule)) : Rule :=
  match r with
  | .mk head _ repository captures begins ends => .mk head rs repository captures begins ends

/-- Sets one of the typed fields that hold a map of rules. -/
def setMap (r : Rule) (key : String) (rs : Option (List (String × Rule))) : Rule :=
  match r with
  | .mk head patterns repository captures begins ends =>
    if key = "repository" then .mk head patterns rs captures begins ends
    else if key = "captures" then .mk head patterns repository rs begins ends
    else if key = "beginCaptures" then .mk head patterns repository captures rs ends
    else .mk head patterns repository captures begins rs

/-- Sets a field that is not typed. -/
def setExtra (r : Rule) (key : String) (v : Json) : Rule :=
  match r with
  | .mk head patterns repository captures begins ends =>
    .mk { head with extra := Assoc.put head.extra key v } patterns repository captures begins ends

mutual

/-- Reads a rule. -/
def ofJson? : Json → Option Rule
  | .obj fields => ofFields? [] blank fields
  | _ => none

/-- Reads the fields of a rule one after the other. `seen` are the typed fields read before. -/
def ofFields? (seen : List String) (acc : Rule) : List (String × Json) → Option Rule
  | [] => some acc
  | (key, v) :: fields =>
    if !typedFields.contains key then ofFields? seen (acc.setExtra key v.canonical) fields
    else if seen.contains key then none
    else if key = "name" ∨ key = "contentName" ∨ key = "include" then
      match optionalText? v with
      | none => none
      | some text => ofFields? (key :: seen) (acc.setText key text) fields
    else if key = "patterns" then
      match v with
      | .null => ofFields? (key :: seen) (acc.setPatterns none) fields
      | .arr items =>
        match ofItems? items with
        | none => none
        | some rs => ofFields? (key :: seen) (acc.setPatterns (some rs)) fields
      | _ => none
    else
      match v with
      | .null => ofFields? (key :: seen) (acc.setMap key none) fields
      | .obj entries =>
        match ofEntries? entries with
        | none => none
        | some rs => ofFields? (key :: seen) (acc.setMap key (some (Assoc.ofList rs))) fields
      | _ => none

/-- Reads a list of rules. -/
def ofItems? : List Json → Option (List Rule)
  | [] => some []
  | v :: vs =>
    match ofJson? v with
    | none => none
    | some r => (ofItems? vs).map (r :: ·)

/-- Reads the entries of a map of rules as they are written. -/
def ofEntries? : List (String × Json) → Option (List (String × Rule))
  | [] => some []
  | (key, v) :: entries =>
    match ofJson? v with
    | none => none
    | some r => (ofEntries? entries).map ((key, r) :: ·)

end

end Rule

namespace Grammar

/-- The names of the typed fields of a grammar that its root does not have. -/
def typedFields : List String := ["scopeName", "fileTypes", "firstLineMatch"]

/-- Writes a grammar. -/
def toJson (g : Grammar) : Json :=
  .obj (("scopeName", .str g.scopeName)
    :: ((if g.fileTypes.isEmpty then [] else [("fileTypes", Json.strings g.fileTypes)])
      ++ Json.optional "firstLineMatch" (g.firstLineMatch.map Json.str)
      ++ g.root.toFields))

/-- The value of a field that may stand once; the default if it does not stand at all. -/
def single? {α : Type} (read : Json → Option α) (default : α) (name : String)
    (fields : List (String × Json)) : Option α :=
  match fields.filter (·.1 == name) with
  | [] => some default
  | [(_, v)] => read v
  | _ => none

/-- Reads a grammar. -/
def ofJson? : Json → Option Grammar
  | .obj fields => do
    let scopeName ← single? Json.str? "" "scopeName" fields
    let fileTypes ← single? Json.strings? [] "fileTypes" fields
    let firstLineMatch ← single? Rule.optionalText? none "firstLineMatch" fields
    let root ← Rule.ofFields? [] .blank (fields.filter fun f => !typedFields.contains f.1)
    return { scopeName, fileTypes, firstLineMatch, root }
  | _ => none

end Grammar

end ScopeActions
