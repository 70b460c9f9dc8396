import ScopeActions.Assoc
import ScopeActions.Toml.Value

/-!
# Tables under construction

While a document is read, tables are put together from headers, dotted keys and values. A draft remembers
how each table came about, because a table may be defined only once: `implicit` if it was only passed on
the way to another, `dotted` if dotted keys made it. Values, inline tables among them, are closed.
-/

namespace ScopeActions.Toml

/-- A part of a document under construction. -/
inductive Draft where
  | value (v : Toml)
  | table (isImplicit isDotted : Bool) (fields : List (String × Draft))
  /-- The tables of an array written by headers. The last one is open. -/
  | tables (done : List Draft) (last : Draft)
  deriving Inhabited

namespace Draft

/-- The table that a document starts with. -/
def root : Draft := .table false false []

/-- Changes the table at the end of a path, making the tables that are missing. Dotted keys may not pass
through a table that a header has defined. -/
def modifyAt (dotted : Bool) (f : Draft → Option Draft) : List String → Draft → Option Draft
  | [], d => f d
  | key :: path, .table isImplicit isDotted fields => do
    let child ←
      match Assoc.get? fields key with
      | none => modifyAt dotted f path (.table true dotted [])
      | some (.value _) => none
      | some (.tables done last) => (modifyAt dotted f path last).map (.tables done)
      | some (.table childImplicit childDotted childFields) =>
        if dotted && !childImplicit then none
        else modifyAt dotted f path (.table childImplicit childDotted childFields)
    return .table isImplicit isDotted (Assoc.put fields key child)
  | _ :: _, _ => none

/-- Adds a value under a key that may be dotted to the table it is written in. -/
def define (keys : List String) (v : Toml) (d : Draft) : Option Draft :=
  match keys.reverse with
  | [] => none
  | key :: reversedPath =>
    let insert : Draft → Option Draft
      | .table isImplicit isDotted fields =>
        if isDotted == reversedPath.isEmpty || Assoc.contains fields key then none
        else some (.table isImplicit isDotted (Assoc.put fields key (.value v)))
      | _ => none
    modifyAt true insert reversedPath.reverse d

/-- Defines the table that a header names. -/
def openTable (keys : List String) (d : Draft) : Option Draft :=
  match keys.reverse with
  | [] => none
  | key :: reversedPath =>
    let insert : Draft → Option Draft
      | .table isImplicit isDotted fields =>
        match Assoc.get? fields key with
        | none => some (.table isImplicit isDotted (Assoc.put fields key (.table false false [])))
        | some (.table true false childFields) =>
          some (.table isImplicit isDotted (Assoc.put fields key (.table false false childFields)))
        | some _ => none
      | _ => none
    modifyAt false insert reversedPath.reverse d

/-- Appends a table to the array that a double header names. -/
def openItem (keys : List String) (d : Draft) : Option Draft :=
  match keys.reverse with
  | [] => none
  | key :: reversedPath =>
    let insert : Draft → Option Draft
      | .table isImplicit isDotted fields =>
        match Assoc.get? fields key with
        | none => some (.table isImplicit isDotted (Assoc.put fields key (.tables [] .root)))
        | some (.tables done last) =>
          some (.table isImplicit isDotted
            (Assoc.put fields key (.tables (done ++ [last]) .root)))
        | some _ => none
      | _ => none
    modifyAt false insert reversedPath.reverse d

/-- Adds a value to the table that the last header has opened. -/
def defineIn (header keys : List String) (v : Toml) (d : Draft) : Option Draft :=
  modifyAt false (define keys v) header d

mutual

/-- The finished value. -/
def toToml : Draft → Toml
  | .value v => v
  | .table _ _ fields => .table (SortedMap.ofList (fieldsToToml fields))
  | .tables done last => .arr (itemsToToml done ++ [toToml last])

/-- The finished fields. -/
def fieldsToToml : List (String × Draft) → List (String × Toml)
  | [] => []
  | (key, d) :: fields => (key, toToml d) :: fieldsToToml fields

/-- The finished items. -/
def itemsToToml : List Draft → List Toml
  | [] => []
  | d :: ds => toToml d :: itemsToToml ds

end

end Draft

end ScopeActions.Toml
