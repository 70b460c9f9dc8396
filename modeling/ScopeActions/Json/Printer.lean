import ScopeActions.Decimal.Shortest
import ScopeActions.Json.Value

/-!
# Writing JSON

The compact form has no blanks. The pretty form puts every item and field on a line of its own,
indented by two spaces a level; an empty container stays on its line. Both write text other than
controls, quotes and backslashes as it is.
-/

namespace ScopeActions.Json

/-- Doubles always show a point or an exponent, and a positive exponent its sign. -/
def doubleStyle : Binary64.Style := ⟨-5, 15, true⟩

/-- A hexadecimal digit. -/
def hexDigit (n : Nat) : Char :=
  (Nat.digitChar n)

/-- A character inside a string. -/
def escapeChar (c : Char) : String :=
  if c = '"' then "\\\""
  else if c = '\\' then "\\\\"
  else if c = '\n' then "\\n"
  else if c = '\r' then "\\r"
  else if c = '\t' then "\\t"
  else if c = '\x08' then "\\b"
  else if c = '\x0c' then "\\f"
  else if c.toNat < 0x20 then
    "\\u00" ++ String.ofList [hexDigit (c.toNat / 16), hexDigit (c.toNat % 16)]
  else c.toString

/-- A string with its quotes. -/
def renderString (s : String) : String :=
  "\"" ++ String.join (s.toList.map escapeChar) ++ "\""

/-- A value that holds no others. -/
def renderScalar : Json → String
  | null => "null"
  | bool b => if b then "true" else "false"
  | int n => toString n
  | double d => d.toText doubleStyle
  | str s => renderString s
  | arr _ => "[]"
  | obj _ => "\x7b\x7d"

mutual

/-- The compact form. -/
def render : Json → String
  | arr items => "[" ++ renderItems items ++ "]"
  | obj fields => "\x7b" ++ renderFields fields ++ "\x7d"
  | v => renderScalar v

/-- Items between commas. -/
def renderItems : List Json → String
  | [] => ""
  | [v] => render v
  | v :: w :: vs => render v ++ "," ++ renderItems (w :: vs)

/-- Fields between commas. -/
def renderFields : List (String × Json) → String
  | [] => ""
  | [(k, v)] => renderString k ++ ":" ++ render v
  | (k, v) :: f :: fs => renderString k ++ ":" ++ render v ++ "," ++ renderFields (f :: fs)

end

/-- A new line at the given level. -/
def newline (level : Nat) : String :=
  "\n" ++ String.ofList (List.replicate (2 * level) ' ')

mutual

/-- The pretty form of a value that stands at the given level. -/
def prettyAt (level : Nat) : Json → String
  | arr [] => "[]"
  | arr items => "[" ++ prettyItems (level + 1) items ++ newline level ++ "]"
  | obj [] => "\x7b\x7d"
  | obj fields => "\x7b" ++ prettyFields (level + 1) fields ++ newline level ++ "\x7d"
  | v => renderScalar v

/-- Items, each on its own line. -/
def prettyItems (level : Nat) : List Json → String
  | [] => ""
  | [v] => newline level ++ prettyAt level v
  | v :: w :: vs => newline level ++ prettyAt level v ++ "," ++ prettyItems level (w :: vs)

/-- Fields, each on its own line. -/
def prettyFields (level : Nat) : List (String × Json) → String
  | [] => ""
  | [(k, v)] => newline level ++ renderString k ++ ": " ++ prettyAt level v
  | (k, v) :: f :: fs =>
    newline level ++ renderString k ++ ": " ++ prettyAt level v ++ ","
      ++ prettyFields level (f :: fs)

end

/-- The pretty form. -/
def pretty (v : Json) : String :=
  prettyAt 0 v

end ScopeActions.Json
