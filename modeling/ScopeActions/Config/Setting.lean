import ScopeActions.Assoc
import ScopeActions.Json.Value
import ScopeActions.Toml.Value

/-!
# Settings

Settings come from TOML files and from JSON values. Both are read through one view, in which a group of
settings is a table, or a list that gives its members in their order.
-/

namespace ScopeActions

/-- A value as settings are read from it. -/
inductive Setting where
  | text (s : String)
  | flag (b : Bool)
  | list (items : List Setting)
  | table (fields : List (String × Setting))
  | other

namespace Setting

mutual

/-- A TOML value as a setting. -/
def ofToml : Toml → Setting
  | .str s => text s
  | .bool b => flag b
  | .arr items => list (ofTomlItems items)
  | .table fields => table (ofTomlFields fields)
  | .int _ | .float _ | .datetime _ => other

/-- The items of a TOML array as settings. -/
def ofTomlItems : List Toml → List Setting
  | [] => []
  | v :: vs => ofToml v :: ofTomlItems vs

/-- The fields of a TOML table as settings. -/
def ofTomlFields : List (String × Toml) → List (String × Setting)
  | [] => []
  | (key, v) :: fields => (key, ofToml v) :: ofTomlFields fields

end

mutual

/-- A JSON value as a setting. -/
def ofJson : Json → Setting
  | .str s => text s
  | .bool b => flag b
  | .arr items => list (ofJsonItems items)
  | .obj fields => table (ofJsonFields fields)
  | .null | .int _ | .double _ => other

/-- The items of a JSON array as settings. -/
def ofJsonItems : List Json → List Setting
  | [] => []
  | v :: vs => ofJson v :: ofJsonItems vs

/-- The fields of a JSON object as settings. -/
def ofJsonFields : List (String × Json) → List (String × Setting)
  | [] => []
  | (key, v) :: fields => (key, ofJson v) :: ofJsonFields fields

end

/-- A text. -/
def text? : Setting → Option String
  | text s => some s
  | _ => none

/-- A truth value. -/
def flag? : Setting → Option Bool
  | flag b => some b
  | _ => none

/-- A list of texts. -/
def texts? : Setting → Option (List String)
  | list items => items.mapM text?
  | _ => none

/-- The members of a group with the given names. A table may leave members out, but has no others and
none twice; a list gives them in order and may stop early. -/
def members? (names : List String) : Setting → Option (Assoc Setting)
  | table fields =>
    if (Assoc.keys fields).all (names.contains ·) && (Assoc.keys fields).length
        == (Assoc.keys fields).eraseDups.length then some fields
    else none
  | list items => if items.length ≤ names.length then some (names.zip items) else none
  | _ => none

/-- Reads a member of a group; one that is left out has its default. -/
def member? {α : Type} (read : Setting → Option α) (default : α) (group : Assoc Setting)
    (name : String) : Option α :=
  match Assoc.get? group name with
  | none => some default
  | some v => read v

end Setting

end ScopeActions
