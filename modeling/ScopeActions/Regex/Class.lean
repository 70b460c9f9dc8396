import ScopeActions.Regex.Basic

/-!
# Reading escapes and character classes

The parts of a pattern that stand for one character. Readers take the text from where it stands and give
back the rest; nothing is given for text that is not well formed.
-/

namespace ScopeActions.Regex

/-- The value of a hexadecimal digit. -/
def hexDigit? (c : Char) : Option Nat :=
  if '0' ≤ c ∧ c ≤ '9' then some (c.toNat - '0'.toNat)
  else if 'a' ≤ c ∧ c ≤ 'f' then some (c.toNat - 'a'.toNat + 10)
  else if 'A' ≤ c ∧ c ≤ 'F' then some (c.toNat - 'A'.toNat + 10)
  else none

/-- The character with the number that hexadecimal digits write. -/
def hexChar? (digits : List Char) : Option Char := do
  if digits.isEmpty then none
  let values ← digits.mapM hexDigit?
  let n := values.foldl (fun n d => n * 16 + d) 0
  if h : n.isValidChar then some (Char.ofNatAux n h) else none

/-- The number after `\x`, `\u` or `\U`: as many digits as `width` says, or any number in braces. -/
def readHex (width : Nat) : List Char → Option (Char × List Char)
  | '\x7b' :: cs => do
    let digits := cs.takeWhile (· != '\x7d')
    match cs.dropWhile (· != '\x7d') with
    | '\x7d' :: rest => return (← hexChar? digits, rest)
    | _ => none
  | cs =>
    if cs.length < width then none
    else do return (← hexChar? (cs.take width), cs.drop width)

/-- A letter or digit of ASCII. -/
def isAlphanumeric (c : Char) : Bool :=
  c.isAlpha || c.isDigit

/-- The character an escape stands for, read after the backslash. Only marks can be escaped that have no
meaning of their own as letters or digits. -/
def readEscapedChar : List Char → Option (Char × List Char)
  | 'n' :: cs => some ('\n', cs)
  | 'r' :: cs => some ('\r', cs)
  | 't' :: cs => some ('\t', cs)
  | 'f' :: cs => some ('\x0c', cs)
  | 'v' :: cs => some ('\x0b', cs)
  | 'a' :: cs => some ('\x07', cs)
  | 'x' :: cs => readHex 2 cs
  | 'u' :: cs => readHex 4 cs
  | 'U' :: cs => readHex 8 cs
  | c :: cs =>
    if c.toNat < 0x80 && !isAlphanumeric c && c != '<' && c != '>' then some (c, cs) else none
  | [] => none

/-- The set that a letter after a backslash stands for. -/
def letterClass? : Char → Option CharClass
  | 'd' => some .digit
  | 'D' => some (.not .digit)
  | 's' => some .space
  | 'S' => some (.not .space)
  | 'w' => some .word
  | 'W' => some (.not .word)
  | _ => none

/-- The sets that can be named inside a class. -/
def namedClass? : String → Option CharClass
  | "alnum" => some (.or (.range '0' '9') (.or (.range 'A' 'Z') (.range 'a' 'z')))
  | "alpha" => some (.or (.range 'A' 'Z') (.range 'a' 'z'))
  | "ascii" => some (.range '\x00' '\x7f')
  | "blank" => some (.or (.single '\t') (.single ' '))
  | "cntrl" => some (.or (.range '\x00' '\x1f') (.single '\x7f'))
  | "digit" => some (.range '0' '9')
  | "graph" => some (.range '!' '~')
  | "lower" => some (.range 'a' 'z')
  | "print" => some (.range ' ' '~')
  | "punct" => some (.or (.range '!' '/') (.or (.range ':' '@') (.or (.range '[' '\x60') (.range '\x7b' '~'))))
  | "space" => some (.or (.range '\t' '\r') (.single ' '))
  | "upper" => some (.range 'A' 'Z')
  | "word" => some (.or (.range '0' '9') (.or (.range 'A' 'Z') (.or (.range 'a' 'z') (.single '_'))))
  | "xdigit" => some (.or (.range '0' '9') (.or (.range 'A' 'F') (.range 'a' 'f')))
  | _ => none

/-- A named set, read after `[:`. -/
def readNamedClass (cs : List Char) : Option (CharClass × List Char) := do
  let (wanted, cs) :=
    match cs with
    | '^' :: cs => (false, cs)
    | cs => (true, cs)
  let name := cs.takeWhile Char.isAlpha
  match cs.dropWhile Char.isAlpha with
  | ':' :: ']' :: rest =>
    let c ← namedClass? (String.ofList name)
    return (if wanted then c else .not c, rest)
  | _ => none

/-- How two sets next to each other are combined. -/
inductive ClassOperator where
  | and
  | diff
  | differ
  deriving DecidableEq

/-- Combines two sets. -/
def ClassOperator.apply : ClassOperator → CharClass → CharClass → CharClass
  | .and, a, b => .and a b
  | .diff, a, b => .diff a b
  | .differ, a, b => .or (.diff a b) (.diff b a)

/-- One end of a range, or a set that cannot be one. -/
inductive ClassAtom where
  | char (c : Char)
  | set (c : CharClass)

/-- The set that an atom is on its own. -/
def ClassAtom.toClass : ClassAtom → CharClass
  | .char c => .single c
  | .set c => c

/-- An escape or a plain character inside a class. -/
def readClassAtom : List Char → Option (ClassAtom × List Char)
  | '\\' :: c :: cs =>
    match letterClass? c with
    | some set => some (.set set, cs)
    | none => (readEscapedChar (c :: cs)).map fun r => (.char r.1, r.2)
  | ['\\'] => none
  | c :: cs => some (.char c, cs)
  | [] => none

/-- Leading hyphens and a leading closing bracket are plain characters of a class. -/
def readClassStart (cs : List Char) : CharClass × List Char :=
  let hyphens := cs.takeWhile (· == '-')
  let rest := cs.dropWhile (· == '-')
  let start : CharClass := if hyphens.isEmpty then .none else .single '-'
  match hyphens, rest with
  | [], ']' :: rest => (.single ']', rest)
  | _, rest => (start, rest)

/-- The operator that stands here, if one does. -/
def readOperator? : List Char → Option (ClassOperator × List Char)
  | '&' :: '&' :: cs => some (.and, cs)
  | '-' :: '-' :: cs => some (.diff, cs)
  | '~' :: '~' :: cs => some (.differ, cs)
  | _ => none

mutual

/-- A class, read after its opening bracket. -/
def readClass (anyCase : Bool) : Nat → List Char → Option (CharClass × List Char)
  | 0, _ => none
  | steps + 1, cs => do
    let (wanted, cs) :=
      match cs with
      | '^' :: cs => (false, cs)
      | cs => (true, cs)
    let (start, cs) := readClassStart cs
    let (c, rest) ← readClassItems anyCase steps none start cs
    let c := if anyCase then CharClass.anyCase c else c
    return (if wanted then c else .not c, rest)

/-- The items of a class up to its closing bracket. `pending` is what stands before the operator that was
read last, and `acc` what has been read since. -/
def readClassItems (anyCase : Bool) :
    Nat → Option (CharClass × ClassOperator) → CharClass → List Char → Option (CharClass × List Char)
  | 0, _, _, _ => none
  | steps + 1, pending, acc, cs =>
    let combined : CharClass :=
      match pending with
      | none => acc
      | some (left, op) => op.apply left acc
    match readOperator? cs with
    | some (op, rest) => readClassItems anyCase steps (some (combined, op)) .none rest
    | none =>
      match cs with
      | ']' :: rest => some (combined, rest)
      | '[' :: ':' :: rest =>
        match readNamedClass rest with
        | some (set, rest) => readClassItems anyCase steps pending (.or acc set) rest
        | none =>
          match readClass anyCase steps (':' :: rest) with
          | none => none
          | some (set, rest) => readClassItems anyCase steps pending (.or acc set) rest
      | '[' :: rest =>
        match readClass anyCase steps rest with
        | none => none
        | some (set, rest) => readClassItems anyCase steps pending (.or acc set) rest
      | cs =>
        match readClassAtom cs with
        | none => none
        | some (atom, '-' :: next :: rest) =>
          if next = ']' || next = '-' then
            readClassItems anyCase steps pending (.or acc atom.toClass) ('-' :: next :: rest)
          else
            match atom, readClassAtom (next :: rest) with
            | .char lo, some (.char hi, rest) =>
              if lo ≤ hi then readClassItems anyCase steps pending (.or acc (.range lo hi)) rest
              else none
            | _, _ => none
        | some (atom, rest) => readClassItems anyCase steps pending (.or acc atom.toClass) rest

end

end ScopeActions.Regex
