import ScopeActions.Json.Value

/-!
# JSON numbers

A number without fraction and exponent that fits into 64 bits is an integer. Every other number is a
double: its leading digits, as many as fit into 64 bits, are scaled by a power of ten
(`Binary64.ofScaled?`). A number beyond the largest double is refused.
-/

namespace ScopeActions.Json.Number

/-- The digits read so far: `significand * 10 ^ exponent`. `full` says that a further digit did not
fit. -/
structure Digits where
  significand : Nat := 0
  exponent : Int := 0
  full : Bool := false

/-- Appends a digit before the point. Digits that do not fit only count. -/
def Digits.pushWhole (d : Digits) (digit : Nat) : Digits :=
  let next := d.significand * 10 + digit
  if d.full || maxIndex < next then { d with exponent := d.exponent + 1, full := true }
  else { d with significand := next }

/-- Appends a digit after the point. Digits that do not fit are dropped. -/
def Digits.pushFraction (d : Digits) (digit : Nat) : Digits :=
  let next := d.significand * 10 + digit
  if d.full || maxIndex < next then { d with full := true }
  else { d with significand := next, exponent := d.exponent - 1 }

/-- The value of a decimal digit. -/
def digitValue (c : Char) : Nat :=
  c.toNat - '0'.toNat

/-- Applies an exponent. One of more than 31 bits is refused or gives zero. -/
def withExponent (negative : Bool) (d : Digits) (down : Bool) (exponent : Nat) :
    Option Binary64 :=
  if pow2 31 ≤ exponent then
    if d.significand = 0 ∨ down then some (Binary64.zero negative) else none
  else if down then Binary64.ofScaled? negative d.significand (d.exponent - exponent)
  else Binary64.ofScaled? negative d.significand (d.exponent + exponent)

/-- A number without fraction and exponent. Minus zero is a double. -/
def ofWhole? (negative : Bool) (d : Digits) : Option Json :=
  if d.full then (Binary64.ofScaled? negative d.significand d.exponent).map double
  else if ¬ negative then some (int d.significand)
  else if 0 < d.significand ∧ d.significand ≤ pow2 63 then some (int (-d.significand))
  else (Binary64.ofScaled? true d.significand 0).map double

/-- The exponent part, if one follows. -/
def readExponent (negative : Bool) (d : Digits) : List Char → Option (Binary64 × List Char)
  | cs =>
    let (down, cs) :=
      match cs with
      | '+' :: cs => (false, cs)
      | '-' :: cs => (true, cs)
      | cs => (false, cs)
    let digits := cs.takeWhile Char.isDigit
    if digits.isEmpty then none
    else
      let exponent := digits.foldl (fun n c => n * 10 + digitValue c) 0
      (withExponent negative d down exponent).map (·, cs.dropWhile Char.isDigit)

/-- The number at the front of the text, whose minus sign is read already. -/
def readUnsigned (negative : Bool) (cs : List Char) : Option (Json × List Char) := do
  let whole := cs.takeWhile Char.isDigit
  let rest := cs.dropWhile Char.isDigit
  match whole with
  | [] => none
  | '0' :: _ :: _ => none
  | _ => pure ()
  let d := whole.foldl (fun d c => d.pushWhole (digitValue c)) ({} : Digits)
  match rest with
  | '.' :: rest =>
    let fraction := rest.takeWhile Char.isDigit
    if fraction.isEmpty then none
    let d := fraction.foldl (fun d c => d.pushFraction (digitValue c)) { d with full := false }
    match rest.dropWhile Char.isDigit with
    | 'e' :: rest => (readExponent negative d rest).map fun r => (double r.1, r.2)
    | 'E' :: rest => (readExponent negative d rest).map fun r => (double r.1, r.2)
    | rest => (Binary64.ofScaled? negative d.significand d.exponent).map fun v => (double v, rest)
  | 'e' :: rest => (readExponent negative d rest).map fun r => (double r.1, r.2)
  | 'E' :: rest => (readExponent negative d rest).map fun r => (double r.1, r.2)
  | rest => (ofWhole? negative d).map (·, rest)

/-- The number at the front of the text. -/
def read : List Char → Option (Json × List Char)
  | '-' :: cs => readUnsigned true cs
  | cs => readUnsigned false cs

end ScopeActions.Json.Number
