import ScopeActions.Toml.Value

/-!
# TOML scalars

Numbers, truth values and date-times, which are written without quotes. Each reader is given the whole
text of a scalar and says what it means, or nothing when it is not of that kind.
-/

namespace ScopeActions.Toml.Scalar

/-- The digits of a text of digits with single underscores between them. -/
def plainDigits (isDigit : Char → Bool) : List Char → Option (List Char)
  | [] => none
  | [c] => if isDigit c then some [c] else none
  | c :: '_' :: rest => if isDigit c then (plainDigits isDigit rest).map (c :: ·) else none
  | c :: rest => if isDigit c then (plainDigits isDigit rest).map (c :: ·) else none

/-- A sign, if there is one. -/
def splitSign : List Char → Bool × Bool × List Char
  | '+' :: cs => (false, true, cs)
  | '-' :: cs => (true, true, cs)
  | cs => (false, false, cs)

/-- The value of a digit of any base up to sixteen. -/
def digitValue (c : Char) : Nat :=
  if c.isDigit then c.toNat - '0'.toNat
  else if 'a' ≤ c then c.toNat - 'a'.toNat + 10 else c.toNat - 'A'.toNat + 10

/-- The number that digits write in a base. -/
def ofDigits (base : Nat) (ds : List Char) : Nat :=
  ds.foldl (fun n c => n * base + digitValue c) 0

/-- Decimal digits without a zero in front of others. -/
def wholeDigits (cs : List Char) : Option (List Char) :=
  match cs with
  | '0' :: _ :: _ => none
  | cs => plainDigits Char.isDigit cs

/-- Hexadecimal digits. -/
def isHex (c : Char) : Bool :=
  c.isDigit || ('a' ≤ c && c ≤ 'f') || ('A' ≤ c && c ≤ 'F')

/-- A number in another base than ten. -/
def based (base : Nat) (isDigit : Char → Bool) (cs : List Char) : Option Toml := do
  let n := ofDigits base (← plainDigits isDigit cs)
  if n < pow2 63 then some (.int n) else none

/-- An integer. -/
def int? (cs : List Char) : Option Toml :=
  match cs with
  | '0' :: 'x' :: cs => based 16 isHex cs
  | '0' :: 'o' :: cs => based 8 (fun c => '0' ≤ c && c ≤ '7') cs
  | '0' :: 'b' :: cs => based 2 (fun c => c == '0' || c == '1') cs
  | cs => do
    let (negative, _, cs) := splitSign cs
    let n := ofDigits 10 (← wholeDigits cs)
    if negative then
      if n ≤ pow2 63 then some (.int (-n)) else none
    else if n < pow2 63 then some (.int n) else none

/-- The exponent of a float, read after its letter. -/
def exponent? (cs : List Char) : Option Int := do
  let (negative, _, cs) := splitSign cs
  let n := ofDigits 10 (← plainDigits Char.isDigit cs)
  return if negative then -n else n

/-- The mark between the digits of a number and its exponent. -/
def isExponentMark (c : Char) : Bool :=
  c == 'e' || c == 'E'

/-- A float, which has a fraction or an exponent, or is a name. -/
def float? (cs : List Char) : Option Toml :=
  let (negative, _, cs) := splitSign cs
  match cs with
  | ['i', 'n', 'f'] => some (.float (.infinite negative))
  | ['n', 'a', 'n'] => some (.float .nan)
  | cs => do
    let mantissa := cs.takeWhile fun c => !isExponentMark c
    let e ←
      match cs.dropWhile fun c => !isExponentMark c with
      | [] => if mantissa.contains '.' then some 0 else none
      | _ :: cs => exponent? cs
    let whole ← wholeDigits (mantissa.takeWhile (· != '.'))
    let fraction ←
      match mantissa.dropWhile (· != '.') with
      | [] => some []
      | _ :: cs => plainDigits Char.isDigit cs
    let d ← Binary64.ofDecimal? negative (ofDigits 10 (whole ++ fraction)) (e - fraction.length)
    return .float (.finite d)

/-- A truth value. -/
def bool? : List Char → Option Toml
  | ['t', 'r', 'u', 'e'] => some (.bool true)
  | ['f', 'a', 'l', 's', 'e'] => some (.bool false)
  | _ => none

/-- A number of exactly `width` digits at the front of a text. -/
def fixedNumber (width : Nat) (cs : List Char) : Option (Nat × List Char) :=
  let digits := cs.take width
  if digits.length = width ∧ digits.all Char.isDigit then
    some (ofDigits 10 digits, cs.drop width)
  else none

/-- Number of days in a month. -/
def daysIn (year month : Nat) : Nat :=
  if month = 2 then
    if year % 4 = 0 ∧ (year % 100 ≠ 0 ∨ year % 400 = 0) then 29 else 28
  else if month ∈ [4, 6, 9, 11] then 30
  else 31

/-- A number with leading zeros up to the width. -/
def padded (width n : Nat) : String :=
  let digits := Nat.toDigits 10 n
  String.ofList (List.replicate (width - digits.length) '0' ++ digits)

/-- The date at the front of a text, as it is written. -/
def date? (cs : List Char) : Option (String × List Char) := do
  let (year, cs) ← fixedNumber 4 cs
  let '-' :: cs := cs | none
  let (month, cs) ← fixedNumber 2 cs
  let '-' :: cs := cs | none
  let (day, cs) ← fixedNumber 2 cs
  if 1 ≤ month ∧ month ≤ 12 ∧ 1 ≤ day ∧ day ≤ daysIn year month then
    some (padded 4 year ++ "-" ++ padded 2 month ++ "-" ++ padded 2 day, cs)
  else none

/-- The fraction of a second: at most nine digits, without zeros at the end. -/
def fractionText (digits : List Char) : String :=
  match ((digits.take 9).reverse.dropWhile (· == '0')).reverse with
  | [] => ""
  | ds => "." ++ String.ofList ds

/-- The seconds of a time, which may be left out. -/
def seconds? : List Char → Option (String × List Char)
  | ':' :: cs => do
    let (second, cs) ← fixedNumber 2 cs
    if 60 < second then none
    match cs with
    | '.' :: cs =>
      let digits := cs.takeWhile Char.isDigit
      if digits.isEmpty then none
      else some (":" ++ padded 2 second ++ fractionText digits, cs.dropWhile Char.isDigit)
    | cs => some (":" ++ padded 2 second, cs)
  | cs => some ("", cs)

/-- The time at the front of a text. -/
def time? (cs : List Char) : Option (String × List Char) := do
  let (hour, cs) ← fixedNumber 2 cs
  let ':' :: cs := cs | none
  let (minute, cs) ← fixedNumber 2 cs
  let (seconds, cs) ← seconds? cs
  if hour ≤ 23 ∧ minute ≤ 59 then
    some (padded 2 hour ++ ":" ++ padded 2 minute ++ seconds, cs)
  else none

/-- The offset that ends a text, if there is one. -/
def offset? : List Char → Option String
  | [] => some ""
  | ['Z'] | ['z'] => some "Z"
  | sign :: cs => do
    if sign ≠ '+' ∧ sign ≠ '-' then none
    let (hour, cs) ← fixedNumber 2 cs
    let ':' :: cs := cs | none
    let (minute, cs) ← fixedNumber 2 cs
    if cs.isEmpty ∧ hour ≤ 23 ∧ minute ≤ 59 then
      some (sign.toString ++ padded 2 hour ++ ":" ++ padded 2 minute)
    else none

/-- A date, a time, or both with or without an offset. -/
def datetime? (cs : List Char) : Option Toml :=
  match date? cs with
  | some (date, []) => some (.datetime date)
  | some (date, sep :: rest) => do
    if ¬ (sep = 'T' ∨ sep = 't' ∨ sep = ' ') then none
    let (time, rest) ← time? rest
    return .datetime (date ++ "T" ++ time ++ (← offset? rest))
  | none =>
    match time? cs with
    | some (time, []) => some (.datetime time)
    | _ => none

/-- The characters that scalars are made of. -/
def isScalarChar (c : Char) : Bool :=
  c.isAlphanum || c == '+' || c == '-' || c == '_' || c == '.' || c == ':'

/-- The scalar at the front of a text. A date goes on after a space when a digit follows it. -/
def read (cs : List Char) : Option (Toml × List Char) :=
  let first := cs.takeWhile isScalarChar
  let rest := cs.dropWhile isScalarChar
  let (text, rest) :=
    match (date? first).map (·.2), rest with
    | some [], ' ' :: d :: more =>
      if d.isDigit then
        (first ++ ' ' :: (d :: more).takeWhile isScalarChar, (d :: more).dropWhile isScalarChar)
      else (first, rest)
    | _, _ => (first, rest)
  let value := (bool? text).or ((int? text).or ((float? text).or (datetime? text)))
  value.map (·, rest)

end ScopeActions.Toml.Scalar
