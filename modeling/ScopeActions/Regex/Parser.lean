import ScopeActions.Regex.Class
import ScopeActions.Regex.Match

/-!
# Reading patterns

Two dialects share one reader. The plain one has what can be matched in one pass over the text. The
extended one adds texts ahead and behind, references to groups and conditions that are looked at only, and
is more lenient on braces. A pattern that is not well formed has no tree.
-/

namespace ScopeActions.Regex

/-- What a pattern may contain. -/
inductive Dialect where
  | plain
  | extended
  deriving DecidableEq, Repr

/-- Switches that hold up to the end of the group they stand in. -/
structure Flags where
  anyCase : Bool := false
  multiline : Bool := false
  dotAll : Bool := false
  verbose : Bool := false
  deriving DecidableEq, Repr

/-- What is left to read, and what was seen so far. -/
structure Cursor where
  rest : List Char
  flags : Flags := {}
  /-- Number of groups that were opened. -/
  groups : Nat := 0
  /-- Names of groups. -/
  names : List (String × Nat) := []
  /-- A group is referred to by number. -/
  numbered : Bool := false
  /-- Names that are referred to; those of groups that do not exist make the pattern void. -/
  length : Nat := 0

/-- Goes on with `rest`. -/
def Cursor.at (p : Cursor) (rest : List Char) : Cursor := { p with rest }

/-- Drops the rest of a line. -/
def skipLine (cs : List Char) : List Char :=
  cs.dropWhile (· != '\n')

/-- Drops blanks and comments, which say nothing under the verbose flag. -/
def skipVerbose (verbose : Bool) : Nat → List Char → List Char
  | 0, cs => cs
  | steps + 1, cs =>
    if !verbose then cs
    else
      match cs with
      | '#' :: cs => skipVerbose verbose steps (skipLine cs)
      | c :: cs => if Text.isBlank c then skipVerbose verbose steps cs else c :: cs
      | [] => []

/-- The pattern of one literal character. -/
def literal (flags : Flags) (c : Char) : Regex :=
  if flags.anyCase then .char (.anyCase (.single c)) else .char (.single c)

/-- A decimal number, with blanks around it. -/
def readCount (cs : List Char) : Option (Nat × List Char) :=
  let cs := cs.dropWhile Text.isBlank
  let digits := cs.takeWhile Char.isDigit
  if digits.isEmpty then none
  else
    some (digits.foldl (fun n c => n * 10 + (c.toNat - '0'.toNat)) 0,
      (cs.dropWhile Char.isDigit).dropWhile Text.isBlank)

/-- The bounds of a counted repetition, read after the opening brace. -/
def readBounds (dialect : Dialect) (cs : List Char) : Option (Nat × Option Nat × List Char) :=
  let first :=
    match readCount cs with
    | some r => some r
    | none =>
      match dialect, cs with
      | .extended, ',' :: _ => some (0, cs)
      | _, _ => none
  match first with
  | none => none
  | some (n, '\x7d' :: rest) => some (n, some n, rest)
  | some (n, ',' :: cs) =>
    match cs.dropWhile Text.isBlank with
    | '\x7d' :: rest => some (n, none, rest)
    | cs =>
      match readCount cs with
      | some (m, '\x7d' :: rest) => some (n, some m, rest)
      | _ => none
  | some _ => none

/-- Drops the mark that makes a repetition lazy, which does not matter for whether a text matches. -/
def skipLazy : List Char → List Char
  | '?' :: cs => cs
  | cs => cs

/-- Drops a plus sign. -/
def skipPlus : List Char → List Char
  | '+' :: cs => cs
  | cs => cs

/-- What may be repeated. Conditions and what is always empty may be in the plain dialect only. -/
def repeatable (dialect : Dialect) : Regex → Bool
  | .empty | .anchor _ | .ahead _ _ | .behind _ _ => dialect == .plain
  | _ => true

/-- The flag switched on by a letter, which may be void. -/
def Flags.set (flags : Flags) (on : Bool) : Char → Option Flags
  | 'i' => some { flags with anyCase := on }
  | 'm' => some { flags with multiline := on }
  | 's' => some { flags with dotAll := on }
  | 'x' => some { flags with verbose := on }
  | 'U' | 'u' => some flags
  | _ => none

/-- Flags, up to the mark that ends them. Each letter may stand once, and something must follow a minus
sign. -/
def readFlags (flags : Flags) (on : Bool) (seen : List Char) :
    List Char → Option (Flags × List Char)
  | ')' :: cs => if seen.head? = some '-' then none else some (flags, ')' :: cs)
  | ':' :: cs => if seen.head? = some '-' then none else some (flags, ':' :: cs)
  | '-' :: cs => if on then readFlags flags false ('-' :: seen) cs else none
  | c :: cs =>
    if seen.contains c then none
    else
      match flags.set on c with
      | none => none
      | some flags => readFlags flags on (c :: seen) cs
  | [] => none

/-- The name of a group, up to the mark that ends it. -/
def readName (stop : Char) (cs : List Char) : Option (String × List Char) :=
  let name := cs.takeWhile (· != stop)
  match name, cs.dropWhile (· != stop) with
  | first :: others, _ :: rest =>
    let plain (c : Char) : Bool := c == '_' || (Text.isWord c && !Text.isDigit c)
    if plain first && others.all fun c => plain c || Text.isDigit c || c == '.' then
      some (String.ofList name, rest)
    else none
  | _, _ => none

/-- A reference to a named group. -/
def namedReference (p : Cursor) (name : String) (rest : List Char) : Option (Regex × Cursor) :=
  (p.names.find? (·.1 == name)).map fun g => (.again g.2 p.flags.anyCase, p.at rest)

/-- An escape outside a class, read after the backslash. -/
def readEscape (dialect : Dialect) (p : Cursor) : List Char → Option (Regex × Cursor)
  | [] => none
  | c :: cs =>
    let anchored (a : Anchor) : Option (Regex × Cursor) := some (.anchor a, p.at cs)
    match letterClass? c with
    | some set => some (.char set, p.at cs)
    | none =>
      match dialect, c, cs with
      | _, 'A', _ => anchored .textStart
      | _, 'z', _ => anchored .textEnd
      | _, 'b', _ => anchored .wordEdge
      | _, 'B', _ => anchored .noWordEdge
      | _, '<', _ => anchored .wordStart
      | _, '>', _ => anchored .wordStop
      | .extended, 'Z', _ => anchored .lastLineEnd
      | .extended, 'e', _ => some (literal p.flags '\x1b', p.at cs)
      | .extended, 'h', _ =>
        some (.char (.or (.range '0' '9') (.or (.range 'A' 'F') (.range 'a' 'f'))), p.at cs)
      | .extended, 'H', _ =>
        some (.char (.not (.or (.range '0' '9') (.or (.range 'A' 'F') (.range 'a' 'f')))), p.at cs)
      | .extended, 'k', '<' :: cs => (readName '>' cs).bind fun r => namedReference p r.1 r.2
      | .extended, _, _ =>
        if c.isDigit then
          let digits := (c :: cs).takeWhile Char.isDigit
          let index := digits.foldl (fun n d => n * 10 + (d.toNat - '0'.toNat)) 0
          if index < p.length / 2 then
            some (.again index p.flags.anyCase,
              { p with rest := (c :: cs).dropWhile Char.isDigit, numbered := true })
          else none
        else (readEscapedChar (c :: cs)).map fun r => (literal p.flags r.1, p.at r.2)
      | .plain, _, _ => (readEscapedChar (c :: cs)).map fun r => (literal p.flags r.1, p.at r.2)

/-- How a group begins. -/
inductive Opening where
  | numbered
  | named (name : String)
  | bare
  | scoped (flags : Flags)
  | switch (flags : Flags)
  | comment
  | ahead (wanted : Bool)
  | behind (wanted : Bool)
  | reference (name : String)

/-- The beginning of a group, read after the opening parenthesis. -/
def readOpening (dialect : Dialect) (flags : Flags) : List Char → Option (Opening × List Char)
  | '?' :: ':' :: cs => some (.bare, cs)
  | '?' :: '=' :: cs => if dialect = .extended then some (.ahead true, cs) else none
  | '?' :: '!' :: cs => if dialect = .extended then some (.ahead false, cs) else none
  | '?' :: '<' :: '=' :: cs => if dialect = .extended then some (.behind true, cs) else none
  | '?' :: '<' :: '!' :: cs => if dialect = .extended then some (.behind false, cs) else none
  | '?' :: '#' :: cs =>
    if dialect = .extended then
      match cs.dropWhile (· != ')') with
      | ')' :: cs => some (.comment, cs)
      | _ => none
    else none
  | '?' :: 'P' :: '=' :: cs =>
    if dialect = .extended then (readName ')' cs).map fun r => (.reference r.1, r.2) else none
  | '?' :: 'P' :: '<' :: cs => (readName '>' cs).map fun r => (.named r.1, r.2)
  | '?' :: '<' :: cs => (readName '>' cs).map fun r => (.named r.1, r.2)
  | '?' :: cs =>
    match readFlags flags true [] cs with
    | some (flags, ':' :: rest) => some (.scoped flags, rest)
    | some (flags, ')' :: rest) => if cs.head? = some ')' then none else some (.switch flags, rest)
    | _ => none
  | cs => some (.numbered, cs)

mutual

/-- Alternatives up to the end of the text or of the group. -/
def readAlternatives (dialect : Dialect) : Nat → Cursor → Option (Regex × Cursor)
  | 0, _ => none
  | steps + 1, p =>
    match readSequence dialect steps .empty p with
    | none => none
    | some (r, p) =>
      match p.rest with
      | '|' :: rest =>
        (readAlternatives dialect steps (p.at rest)).map fun q => (.alt r q.1, q.2)
      | _ => some (r, p)

/-- Pieces one after the other. -/
def readSequence (dialect : Dialect) : Nat → Regex → Cursor → Option (Regex × Cursor)
  | 0, _, _ => none
  | steps + 1, acc, p =>
    match skipVerbose p.flags.verbose p.rest.length p.rest with
    | [] => some (acc, p.at [])
    | '|' :: cs => some (acc, p.at ('|' :: cs))
    | ')' :: cs => some (acc, p.at (')' :: cs))
    | cs =>
      match readAtom dialect steps (p.at cs) with
      | none => none
      | some (none, p) =>
        match skipVerbose p.flags.verbose p.rest.length p.rest with
        | '*' :: _ | '+' :: _ | '?' :: _ => none
        | '\x7b' :: rest =>
          if dialect = .plain || (readBounds dialect rest).isSome then none
          else readSequence dialect steps acc p
        | _ => readSequence dialect steps acc p
      | some (some atom, p) =>
        match readRepetitions dialect steps atom p with
        | none => none
        | some (piece, p) => readSequence dialect steps (if acc = .empty then piece else .cat acc piece) p

/-- The repetitions after an atom. The extended dialect takes one, and a plus sign after it. -/
def readRepetitions (dialect : Dialect) : Nat → Regex → Cursor → Option (Regex × Cursor)
  | 0, _, _ => none
  | steps + 1, atom, p =>
    let again (least : Nat) (most : Option Nat) (rest : List Char) : Option (Regex × Cursor) :=
      if !repeatable dialect atom || most.any (· < least) then none
      else
        match dialect with
        | .plain => readRepetitions dialect steps (.times atom least most) (p.at (skipLazy rest))
        | .extended => some (.times atom least most, p.at (skipPlus (skipLazy rest)))
    match skipVerbose p.flags.verbose p.rest.length p.rest with
    | '*' :: rest => again 0 none rest
    | '+' :: rest => again 1 none rest
    | '?' :: rest => again 0 (some 1) rest
    | '\x7b' :: rest =>
      match readBounds dialect rest with
      | some (least, most, rest) => again least most rest
      | none => if dialect = .extended then some (atom, p.at ('\x7b' :: rest)) else none
    | rest => some (atom, p.at rest)

/-- One atom. A switch of flags is none. -/
def readAtom (dialect : Dialect) : Nat → Cursor → Option (Option Regex × Cursor)
  | 0, _ => none
  | steps + 1, p =>
    let one (r : Regex) (rest : List Char) : Option (Option Regex × Cursor) :=
      some (some r, p.at rest)
    match p.rest with
    | '.' :: cs =>
      one (.char (if p.flags.dotAll then .all else .not (.single '\n'))) cs
    | '^' :: cs => one (.anchor (if p.flags.multiline then .lineStart else .textStart)) cs
    | '$' :: cs => one (.anchor (if p.flags.multiline then .lineEnd else .textEnd)) cs
    | '[' :: cs =>
      match readClass p.flags.anyCase steps cs with
      | none => none
      | some (set, rest) => one (.char set) rest
    | '\\' :: cs => (readEscape dialect p cs).map fun r => (some r.1, r.2)
    | '(' :: cs =>
      match readOpening dialect p.flags cs with
      | none => none
      | some (.switch flags, rest) => some (none, { p with rest, flags })
      | some (.comment, rest) => some (none, p.at rest)
      | some (.reference name, rest) =>
        (namedReference p name rest).map fun r => (some r.1, r.2)
      | some (opening, rest) =>
        let outer := p.flags
        let index := p.groups + 1
        let inner : Option Cursor :=
          match opening with
          | .numbered => some { p with rest, groups := index }
          | .named name =>
            if p.names.any (·.1 == name) then none
            else some { p with rest, groups := index, names := (name, index) :: p.names }
          | .scoped flags => some { p with rest, flags }
          | _ => some (p.at rest)
        let wrap (r : Regex) : Regex :=
          match opening with
          | .numbered | .named _ => .group index r
          | .ahead wanted => .ahead wanted r
          | .behind wanted => .behind wanted r
          | _ => r
        match inner with
        | none => none
        | some inner =>
          match readAlternatives dialect steps inner with
          | some (r, q) =>
            match q.rest with
            | ')' :: rest => some (some (wrap r), { q with rest, flags := outer })
            | _ => none
          | none => none
    | '*' :: _ | '+' :: _ | '?' :: _ | [] => none
    | '\x7b' :: cs => if dialect = .extended then one (literal p.flags '\x7b') cs else none
    | c :: cs => one (literal p.flags c) cs

end

/-- The tree of a pattern, if it is well formed. Groups that are referred to must exist, and not by
number where groups have names. -/
def compile? (dialect : Dialect) (pattern : String) : Option Regex :=
  let cs := pattern.toList
  let start : Cursor := { rest := cs, length := pattern.utf8ByteSize }
  match readAlternatives dialect (4 * cs.length + 8) start with
  | some (r, p) =>
    if p.rest.isEmpty && r.references.all (fun i => 0 < i && i ≤ p.groups)
        && !(p.numbered && !p.names.isEmpty) then some r
    else none
  | none => none

end ScopeActions.Regex
