import ScopeActions.Json.Value
import ScopeActions.Text.Slice

/-!
# Tokens

A token is a span of a line, between two byte offsets, with the scopes that a grammar gave to it.
-/

namespace ScopeActions

/-- A span of a line with its scopes, outermost first. -/
structure Token where
  start : Nat
  stop : Nat
  scopes : List String
  deriving DecidableEq, Repr

namespace Token

/-- The text of the token in a line. Offsets beyond the end of the line mean its end; a span that cuts a
character apart has no text. -/
def text (t : Token) (line : String) : String :=
  let cs := line.toList
  let stop := min t.stop (Text.byteLength cs)
  match Text.slice (min t.start stop) stop cs with
  | some piece => String.ofList piece
  | none => ""

/-- The value of a field that has several names, under one of which it stands once. -/
def field? (names : List String) (fields : List (String × Json)) : Option Json :=
  match fields.filter fun f => names.contains f.1 with
  | [(_, v)] => some v
  | _ => none

/-- Reads a token: an object, whose other fields count for nothing, or the list of the three fields. -/
def ofJson? : Json → Option Token
  | .obj fields => do
    let start ← (← field? ["start", "startIndex"] fields).index?
    let stop ← (← field? ["end", "endIndex"] fields).index?
    let scopes ← (← field? ["scopes"] fields).strings?
    return { start, stop, scopes }
  | .arr [start, stop, scopes] => do
    return { start := ← start.index?, stop := ← stop.index?, scopes := ← scopes.strings? }
  | _ => none

/-- Reads the tokens of a line. -/
def listOfJson? (v : Json) : Option (List Token) := do
  (← v.arr?).mapM ofJson?

/-- Writes a token. -/
def toJson (t : Token) : Json :=
  .obj [("start", .nat t.start), ("end", .nat t.stop), ("scopes", .strings t.scopes)]

end Token

end ScopeActions
