import ScopeActions.Json.Number

/-!
# Reading JSON

Strict JSON: blanks are space, tab, carriage return and line feed; there are no comments and no
trailing commas; a surrogate escape must be one of a pair. Each reader takes the text from where it
stands and gives back what it read together with the rest. The recursion is bounded by a count of
steps that the length of the text always covers.
-/

namespace ScopeActions.Json

/-- A blank between tokens. -/
def isSpace (c : Char) : Bool :=
  c == ' ' || c == '\t' || c == '\n' || c == '\r'

/-- Drops the blanks at the front. -/
def skipSpace (cs : List Char) : List Char :=
  cs.dropWhile isSpace

/-- The value of a hexadecimal digit. -/
def hexValue? (c : Char) : Option Nat :=
  if '0' ≤ c ∧ c ≤ '9' then some (c.toNat - '0'.toNat)
  else if 'a' ≤ c ∧ c ≤ 'f' then some (c.toNat - 'a'.toNat + 10)
  else if 'A' ≤ c ∧ c ≤ 'F' then some (c.toNat - 'A'.toNat + 10)
  else none

/-- The number that four hexadecimal digits write. -/
def hex4? (a b c d : Char) : Option Nat := do
  return (((← hexValue? a) * 16 + (← hexValue? b)) * 16 + (← hexValue? c)) * 16 + (← hexValue? d)

/-- The character that an escape letter stands for. -/
def simpleEscape? : Char → Option Char
  | '"' => some '"'
  | '\\' => some '\\'
  | '/' => some '/'
  | 'b' => some '\x08'
  | 'f' => some '\x0c'
  | 'n' => some '\n'
  | 'r' => some '\r'
  | 't' => some '\t'
  | _ => none

/-- The rest of a string after its opening quote, with the text read so far in reverse. -/
def readString (acc : List Char) : List Char → Option (String × List Char)
  | [] => none
  | '"' :: cs => some (String.ofList acc.reverse, cs)
  | '\\' :: 'u' :: a :: b :: c :: d :: cs =>
    match hex4? a b c d with
    | none => none
    | some n =>
      if 0xD800 ≤ n ∧ n < 0xDC00 then
        match cs with
        | '\\' :: 'u' :: a' :: b' :: c' :: d' :: cs =>
          match hex4? a' b' c' d' with
          | none => none
          | some m =>
            if 0xDC00 ≤ m ∧ m < 0xE000 then
              let point := 0x10000 + (n - 0xD800) * 0x400 + (m - 0xDC00)
              readString (Char.ofNat point :: acc) cs
            else none
        | _ => none
      else if 0xDC00 ≤ n ∧ n < 0xE000 then none
      else readString (Char.ofNat n :: acc) cs
  | '\\' :: e :: cs =>
    match simpleEscape? e with
    | none => none
    | some c => readString (c :: acc) cs
  | c :: cs => if c.toNat < 0x20 then none else readString (c :: acc) cs

mutual

/-- The value at the front of the text. At most `depth` containers may be open inside each other. -/
def readValue (depth : Nat) : Nat → List Char → Option (Json × List Char)
  | 0, _ => none
  | steps + 1, cs =>
    match skipSpace cs with
    | 'n' :: 'u' :: 'l' :: 'l' :: cs => some (null, cs)
    | 't' :: 'r' :: 'u' :: 'e' :: cs => some (bool true, cs)
    | 'f' :: 'a' :: 'l' :: 's' :: 'e' :: cs => some (bool false, cs)
    | '"' :: cs => (readString [] cs).map fun r => (str r.1, r.2)
    | '[' :: cs =>
      if depth = 0 then none
      else
        match skipSpace cs with
        | ']' :: cs => some (arr [], cs)
        | cs => (readItems (depth - 1) steps cs).map fun r => (arr r.1, r.2)
    | '\x7b' :: cs =>
      if depth = 0 then none
      else
        match skipSpace cs with
        | '\x7d' :: cs => some (obj [], cs)
        | cs => (readFields (depth - 1) steps cs).map fun r => (obj r.1, r.2)
    | cs => Number.read cs

/-- The items of an array up to its closing bracket. -/
def readItems (depth : Nat) : Nat → List Char → Option (List Json × List Char)
  | 0, _ => none
  | steps + 1, cs =>
    match readValue depth steps cs with
    | none => none
    | some (v, cs) =>
      match skipSpace cs with
      | ',' :: cs => (readItems depth steps cs).map fun r => (v :: r.1, r.2)
      | ']' :: cs => some ([v], cs)
      | _ => none

/-- The fields of an object up to its closing brace. -/
def readFields (depth : Nat) : Nat → List Char → Option (List (String × Json) × List Char)
  | 0, _ => none
  | steps + 1, cs =>
    match skipSpace cs with
    | '"' :: cs =>
      match readString [] cs with
      | none => none
      | some (key, cs) =>
        match skipSpace cs with
        | ':' :: cs =>
          match readValue depth steps cs with
          | none => none
          | some (v, cs) =>
            match skipSpace cs with
            | ',' :: cs => (readFields depth steps cs).map fun r => ((key, v) :: r.1, r.2)
            | '\x7d' :: cs => some ([(key, v)], cs)
            | _ => none
        | _ => none
    | _ => none

end

/-- How many containers may be open inside each other. -/
def maxDepth : Nat := 127

/-- Reads a whole text, with repeated keys as written. -/
def parseWithin? (depth : Nat) (text : String) : Option Json :=
  let cs := text.toList
  match readValue depth (2 * cs.length + 2) cs with
  | none => none
  | some (v, rest) => if (skipSpace rest).isEmpty then some v else none

/-- Reads a whole text, with repeated keys as written. -/
def parse? (text : String) : Option Json :=
  parseWithin? maxDepth text

end ScopeActions.Json
