import ScopeActions.Toml.Draft
import ScopeActions.Toml.Scalar
import ScopeActions.Toml.Text

/-!
# Reading TOML

A document is a list of lines: key and value, a header, or nothing. Values can go over several lines.
-/

namespace ScopeActions.Toml

/-- How many arrays and inline tables may be open inside each other. -/
def maxDepth : Nat := 80

mutual

/-- The value at the front of a text. -/
def readValue (depth : Nat) : Nat → List Char → Option (Toml × List Char)
  | 0, _ => none
  | steps + 1, cs =>
    match cs with
    | '"' :: _ => (Text.readString cs).map fun r => (.str r.1, r.2)
    | '\'' :: _ => (Text.readString cs).map fun r => (.str r.1, r.2)
    | '[' :: cs =>
      if depth = 0 then none
      else (readItems (depth - 1) steps cs).map fun r => (.arr r.1, r.2)
    | '\x7b' :: cs =>
      if depth = 0 then none
      else (readFields (depth - 1) steps Draft.root cs).map fun r => (r.1.toToml, r.2)
    | cs => Scalar.read cs

/-- The items of an array up to its closing bracket. -/
def readItems (depth : Nat) : Nat → List Char → Option (List Toml × List Char)
  | 0, _ => none
  | steps + 1, cs =>
    match Text.skipLines cs.length cs with
    | none => none
    | some (']' :: rest) => some ([], rest)
    | some cs =>
      match readValue depth steps cs with
      | none => none
      | some (v, rest) =>
        match Text.skipLines rest.length rest with
        | some (',' :: rest) => (readItems depth steps rest).map fun r => (v :: r.1, r.2)
        | some (']' :: rest) => some ([v], rest)
        | _ => none

/-- The fields of an inline table up to its closing brace. -/
def readFields (depth : Nat) : Nat → Draft → List Char → Option (Draft × List Char)
  | 0, _, _ => none
  | steps + 1, draft, cs =>
    match Text.skipLines cs.length cs with
    | none => none
    | some ('\x7d' :: rest) => some (draft, rest)
    | some cs =>
      match Text.readKey cs.length cs with
      | some (keys, '=' :: rest) =>
        match readValue depth steps (Text.skipBlanks rest) with
        | none => none
        | some (v, rest) =>
          match draft.define keys v with
          | none => none
          | some draft =>
            match Text.skipLines rest.length rest with
            | some (',' :: rest) => readFields depth steps draft rest
            | some ('\x7d' :: rest) => some (draft, rest)
            | _ => none
      | _ => none

end

/-- The lines of a document. `header` is the path of the last header. -/
def readLines : Nat → List String → Draft → List Char → Option Draft
  | 0, _, _, _ => none
  | steps + 1, header, draft, cs =>
    match Text.skipLines cs.length cs with
    | none => none
    | some [] => some draft
    | some ('[' :: '[' :: cs) => do
      let (keys, rest) ← Text.readKey cs.length cs
      let ']' :: ']' :: rest := rest | none
      readLines steps keys (← draft.openItem keys) (← Text.endLine rest)
    | some ('[' :: cs) => do
      let (keys, rest) ← Text.readKey cs.length cs
      let ']' :: rest := rest | none
      readLines steps keys (← draft.openTable keys) (← Text.endLine rest)
    | some cs => do
      let (keys, rest) ← Text.readKey cs.length cs
      let '=' :: rest := rest | none
      let rest := Text.skipBlanks rest
      let (v, rest) ← readValue maxDepth (2 * rest.length + 2) rest
      readLines steps header (← draft.defineIn header keys v) (← Text.endLine rest)

/-- Drops the mark that some editors put at the start of a file. -/
def skipByteOrderMark : List Char → List Char
  | '\ufeff' :: cs => cs
  | cs => cs

/-- The table that a document writes. -/
def parse? (text : String) : Option (List (String × Toml)) := do
  let cs := skipByteOrderMark text.toList
  (← readLines (cs.length + 2) [] Draft.root cs).toToml.table?

end ScopeActions.Toml
