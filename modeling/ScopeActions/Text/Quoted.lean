import ScopeActions.Text.Extender
import ScopeActions.Text.Printable

/-!
# Quoted text

The form in which values are shown to a developer: a text stands between double quotes, and the
characters that would not be legible there are written as escapes.
-/

namespace ScopeActions.Text

/-- The hexadecimal digits of `n`, in lower case and without leading zeros. -/
def hex (n : Nat) : String :=
  String.ofList (Nat.toDigits 16 n)

/-- The escape `\u` of a character by its code point. -/
def escapePoint (c : Char) : String :=
  "\\u\x7b" ++ hex c.toNat ++ "\x7d"

/-- A character as it stands inside quotes. -/
def escape (c : Char) : String :=
  if c = '\x00' then "\\0"
  else if c = '\t' then "\\t"
  else if c = '\r' then "\\r"
  else if c = '\n' then "\\n"
  else if c = '"' then "\\\""
  else if c = '\\' then "\\\\"
  else if ' ' ≤ c ∧ c ≤ '~' then c.toString
  else if isExtender c || !isPrintable c then escapePoint c
  else c.toString

/-- A text between quotes. -/
def quote (s : String) : String :=
  "\"" ++ String.join (s.toList.map escape) ++ "\""

/-- A list of texts, each between quotes. -/
def quoteList (ss : List String) : String :=
  "[" ++ String.intercalate ", " (ss.map quote) ++ "]"

end ScopeActions.Text
