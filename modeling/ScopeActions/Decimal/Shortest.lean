import ScopeActions.Decimal.Binary64

/-!
# The shortest decimal that reads back

A double stands for every real number that rounds to it. Its text is the decimal with the fewest
digits among those, and of two the nearer. The number of digits is tried upwards; on the grid of
decimals with that many digits only the two neighbours of the double can be the answer.
-/

namespace ScopeActions

/-- The number `digits * 10 ^ exponent`. -/
structure Decimal where
  digits : Nat
  exponent : Int
  deriving DecidableEq, Repr

namespace Decimal

/-- Drops the zeros at the end of the digits. -/
def strip (digits : Nat) (exponent : Int) : Decimal :=
  if h : 0 < digits ∧ digits % 10 = 0 then strip (digits / 10) (exponent + 1)
  else ⟨digits, exponent⟩
termination_by digits
decreasing_by omega

end Decimal

namespace Binary64

/-- Compares `a * 2 ^ p` with `b * 10 ^ s`, as natural numbers scaled alike. -/
def scaled (p s : Int) (a b : Nat) : Nat × Nat :=
  (a * pow2 p.toNat * pow10 (-s).toNat, b * pow10 s.toNat * pow2 (-p).toNat)

/-- The decimal exponent of the first digit. -/
def leadingExponent (d : Binary64) : Int :=
  (digitCount (d.ratio.1 * pow10 400 / d.ratio.2) : Int) - 401

/-- The decimals of `n` digits that round to the double, tried in order of distance. In units of a
quarter of the last binary place the double is `4 * m`, and the reals that round to it lie between
`low` and `4 * m + 2`, ends included iff `m` is even. -/
def withDigits? (d : Binary64) (n : Nat) : Option Decimal :=
  let low := if d.mantissa = pow2 52 ∧ minExponent < d.exponent then 1 else 2
  let closed := d.mantissa % 2 == 0
  let p := d.exponent - 2
  let s := d.leadingExponent + 1 - n
  let mid := 4 * d.mantissa
  let below := (scaled p s mid 1).1 / (scaled p s mid 1).2
  let hits (c : Nat) : Bool :=
    let (lo, x) := scaled p s (mid - low) c
    let (hi, _) := scaled p s (mid + 2) c
    if closed then lo ≤ x && x ≤ hi else lo < x && x < hi
  let (v, down) := scaled p s mid below
  let (_, up) := scaled p s mid (below + 1)
  let downFirst := v - down < up - v || (v - down == up - v && below % 2 == 0)
  let (first, second) := if downFirst then (below, below + 1) else (below + 1, below)
  if hits first then some (Decimal.strip first s)
  else if hits second then some (Decimal.strip second s)
  else none

/-- The shortest decimal that rounds to the absolute value of the double. Seventeen digits always
suffice. -/
def shortest (d : Binary64) : Decimal :=
  if d.mantissa = 0 then ⟨0, 0⟩
  else ((List.range 17).findSome? fun n => d.withDigits? (n + 1)).getD ⟨0, 0⟩

/-- How a double is written. -/
structure Style where
  /-- The least exponent of the first digit that is written without `e`. -/
  low : Int
  /-- The greatest such exponent. -/
  high : Int
  /-- A positive exponent has a plus sign. -/
  plus : Bool

/-- `e` and the exponent. -/
def exponentText (style : Style) (e : Int) : String :=
  if e < 0 then "e-" ++ toString e.natAbs
  else if style.plus then "e+" ++ toString e.natAbs else "e" ++ toString e.natAbs

/-- Writes a decimal, always with a point or an exponent. -/
def decimalText (style : Style) (d : Decimal) : String :=
  let ds := Nat.toDigits 10 d.digits
  let e : Int := d.exponent + ds.length - 1
  let zeros (n : Nat) : List Char := List.replicate n '0'
  if e < style.low ∨ style.high < e then
    match ds with
    | [] => ""
    | [c] => c.toString ++ exponentText style e
    | c :: rest => c.toString ++ "." ++ String.ofList rest ++ exponentText style e
  else if 0 ≤ d.exponent then String.ofList (ds ++ zeros d.exponent.toNat) ++ ".0"
  else if 0 ≤ e then
    String.ofList (ds.take (e.toNat + 1)) ++ "." ++ String.ofList (ds.drop (e.toNat + 1))
  else "0." ++ String.ofList (zeros (-e - 1).toNat ++ ds)

/-- Writes a double. -/
def toText (style : Style) (d : Binary64) : String :=
  (if d.negative then "-" else "") ++ decimalText style d.shortest

end Binary64

end ScopeActions
