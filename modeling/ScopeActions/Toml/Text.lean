import ScopeActions.Toml.Value

/-!
# TOML strings, keys and blanks

Basic strings have escapes, literal strings have none; both exist on one line and on several. Keys are
bare words or one-line strings, joined by points.
-/

namespace ScopeActions.Toml.Text

/-- A blank inside a line. -/
def isBlank (c : Char) : Bool :=
  c == ' ' || c == '\t'

/-- Drops the blanks at the front. -/
def skipBlanks (cs : List Char) : List Char :=
  cs.dropWhile isBlank

/-- A control character other than the tab, which may stand nowhere. -/
def isForbidden (c : Char) : Bool :=
  (c.toNat < 0x20 && c != '\t') || c == '\x7f'

/-- A line break at the front. -/
def newline? : List Char → Option (List Char)
  | '\n' :: cs => some cs
  | '\r' :: '\n' :: cs => some cs
  | _ => none

/-- Drops a comment, if one stands here. -/
def skipComment : List Char → Option (List Char)
  | '#' :: cs =>
    let rest := cs.dropWhile fun c => !isForbidden c
    if rest.isEmpty || (newline? rest).isSome then some rest else none
  | cs => some cs

/-- The end of a line: blanks, a comment, and a line break or the end of the text. -/
def endLine (cs : List Char) : Option (List Char) := do
  let rest ← skipComment (skipBlanks cs)
  if rest.isEmpty then some [] else newline? rest

/-- Drops blanks, comments and line breaks. -/
def skipLines : Nat → List Char → Option (List Char)
  | 0, cs => some cs
  | steps + 1, cs => do
    let rest ← skipComment (skipBlanks cs)
    match newline? rest with
    | some rest => skipLines steps rest
    | none => some rest

/-- The value of a hexadecimal digit. -/
def hexValue? (c : Char) : Option Nat :=
  if '0' ≤ c ∧ c ≤ '9' then some (c.toNat - '0'.toNat)
  else if 'a' ≤ c ∧ c ≤ 'f' then some (c.toNat - 'a'.toNat + 10)
  else if 'A' ≤ c ∧ c ≤ 'F' then some (c.toNat - 'A'.toNat + 10)
  else none

/-- The character whose number hexadecimal digits write. -/
def hexChar? (digits : List Char) : Option Char := do
  let n := (← digits.mapM hexValue?).foldl (fun n d => n * 16 + d) 0
  if h : n.isValidChar then some (Char.ofNatAux n h) else none

/-- The character of an escape, read after the backslash, with the number of characters it takes. -/
def escape? : List Char → Option (Char × Nat)
  | 'b' :: _ => some ('\x08', 1)
  | 't' :: _ => some ('\t', 1)
  | 'n' :: _ => some ('\n', 1)
  | 'f' :: _ => some ('\x0c', 1)
  | 'r' :: _ => some ('\r', 1)
  | 'e' :: _ => some ('\x1b', 1)
  | '"' :: _ => some ('"', 1)
  | '\\' :: _ => some ('\\', 1)
  | 'x' :: cs => if cs.length < 2 then none else (hexChar? (cs.take 2)).map (·, 3)
  | 'u' :: cs => if cs.length < 4 then none else (hexChar? (cs.take 4)).map (·, 5)
  | 'U' :: cs => if cs.length < 8 then none else (hexChar? (cs.take 8)).map (·, 9)
  | _ => none

/-- The rest of a one-line basic string. `acc` is what was read, in reverse. -/
def basic : Nat → List Char → List Char → Option (String × List Char)
  | 0, _, _ => none
  | steps + 1, acc, cs =>
    match cs with
    | '"' :: cs => some (String.ofList acc.reverse, cs)
    | '\\' :: cs =>
      match escape? cs with
      | some (c, n) => basic steps (c :: acc) (cs.drop n)
      | none => none
    | c :: cs => if isForbidden c then none else basic steps (c :: acc) cs
    | [] => none

/-- The rest of a one-line literal string. -/
def literal (cs : List Char) : Option (String × List Char) :=
  let plain (c : Char) : Bool := c != '\'' && !isForbidden c
  match cs.dropWhile plain with
  | '\'' :: rest => some (String.ofList (cs.takeWhile plain), rest)
  | _ => none

/-- The quotes at the front of a text, of which a string of several lines ends with three and may hold
two more before them. -/
def closing (quote : Char) (cs : List Char) : Option (List Char × List Char) :=
  let n := (cs.takeWhile (· == quote)).length
  if n < 3 then none
  else
    let inside := min (n - 3) 2
    some (List.replicate inside quote, cs.drop (inside + 3))

/-- What follows a backslash at the end of a line: everything up to the next text. -/
def continued? (cs : List Char) : Option (List Char) :=
  (newline? (skipBlanks cs)).map fun rest =>
    rest.dropWhile fun c => isBlank c || c == '\n' || c == '\r'

/-- The rest of a basic string of several lines. -/
def multiBasic : Nat → List Char → List Char → Option (String × List Char)
  | 0, _, _ => none
  | steps + 1, acc, cs =>
    match closing '"' cs with
    | some (quotes, rest) => some (String.ofList (acc.reverse ++ quotes), rest)
    | none =>
      match cs with
      | '\\' :: cs =>
        match escape? cs with
        | some (c, n) => multiBasic steps (c :: acc) (cs.drop n)
        | none =>
          match continued? cs with
          | some rest => multiBasic steps acc rest
          | none => none
      | '\r' :: '\n' :: cs => multiBasic steps ('\n' :: '\r' :: acc) cs
      | c :: cs =>
        if isForbidden c && c != '\n' then none else multiBasic steps (c :: acc) cs
      | [] => none

/-- The rest of a literal string of several lines. -/
def multiLiteral : Nat → List Char → List Char → Option (String × List Char)
  | 0, _, _ => none
  | steps + 1, acc, cs =>
    match closing '\'' cs with
    | some (quotes, rest) => some (String.ofList (acc.reverse ++ quotes), rest)
    | none =>
      match cs with
      | '\r' :: '\n' :: cs => multiLiteral steps ('\n' :: '\r' :: acc) cs
      | c :: cs =>
        if isForbidden c && c != '\n' then none else multiLiteral steps (c :: acc) cs
      | [] => none

/-- Drops a line break right after the opening quotes. -/
def afterOpening (cs : List Char) : List Char :=
  (newline? cs).getD cs

/-- The string at the front of a text. -/
def readString (cs : List Char) : Option (String × List Char) :=
  match cs with
  | '"' :: '"' :: '"' :: cs => multiBasic (cs.length + 1) [] (afterOpening cs)
  | '\'' :: '\'' :: '\'' :: cs => multiLiteral (cs.length + 1) [] (afterOpening cs)
  | '"' :: cs => basic (cs.length + 1) [] cs
  | '\'' :: cs => literal cs
  | _ => none

/-- A character of a bare key. -/
def isBareKeyChar (c : Char) : Bool :=
  c.isAlphanum || c == '_' || c == '-'

/-- One part of a key. -/
def readSimpleKey (cs : List Char) : Option (String × List Char) :=
  match cs with
  | '"' :: cs => basic (cs.length + 1) [] cs
  | '\'' :: cs => literal cs
  | cs =>
    let key := cs.takeWhile isBareKeyChar
    if key.isEmpty then none else some (String.ofList key, cs.dropWhile isBareKeyChar)

/-- A key: parts joined by points, with blanks around them. -/
def readKey : Nat → List Char → Option (List String × List Char)
  | 0, _ => none
  | steps + 1, cs => do
    let (key, rest) ← readSimpleKey (skipBlanks cs)
    match skipBlanks rest with
    | '.' :: rest =>
      let (keys, rest) ← readKey steps rest
      return (key :: keys, rest)
    | rest => return ([key], rest)

end ScopeActions.Toml.Text
