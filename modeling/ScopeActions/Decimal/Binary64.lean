/-!
# Double-precision numbers

A finite double is a sign, a mantissa below `2^53` and a binary exponent. Every operation is computed
exactly on ratios of natural numbers and then rounded once, to the nearest double, ties to the even
mantissa (`Binary64.ofRatio?`). A result beyond the largest double is `none`.
-/

namespace ScopeActions

/-- The `n`-th power of two. -/
def pow2 (n : Nat) : Nat :=
  Nat.pow 2 n

/-- The `n`-th power of ten. -/
def pow10 (n : Nat) : Nat :=
  Nat.pow 10 n

/-- The number `mantissa * 2 ^ exponent`, negated if `negative`. The zero of either sign has mantissa
zero and the least exponent. -/
structure Binary64 where
  negative : Bool
  mantissa : Nat
  exponent : Int
  deriving DecidableEq, Repr, Inhabited

namespace Binary64

/-- The exponent of the smallest doubles. -/
def minExponent : Int := -1074

/-- The exponent of the largest doubles. -/
def maxExponent : Int := 971

/-- The zero with the given sign. -/
def zero (negative : Bool) : Binary64 := ⟨negative, 0, minExponent⟩

/-- `num / den` rounded to the nearest natural number, ties to the even one. -/
def roundDiv (num den : Nat) : Nat :=
  let q := num / den
  let twice := 2 * (num % den)
  if twice < den then q
  else if den < twice then q + 1
  else if q % 2 = 0 then q else q + 1

/-- `num / den / 2 ^ e`, rounded. -/
def roundAt (num den : Nat) (e : Int) : Nat :=
  if 0 ≤ e then roundDiv num (den * pow2 e.toNat) else roundDiv (num * pow2 (-e).toNat) den

/-- `2 ^ 52 * 2 ^ e ≤ num / den`. -/
def fills (num den : Nat) (e : Int) : Bool :=
  if 0 ≤ e then decide (pow2 52 * den * pow2 e.toNat ≤ num)
  else decide (pow2 52 * den ≤ num * pow2 (-e).toNat)

/-- The exponent at which the ratio has 53 binary digits, or the least one. -/
def exponentOf (num den : Nat) : Int :=
  let guess : Int := (num.log2 : Int) - den.log2 - 52
  max minExponent (if fills num den guess then guess else guess - 1)

/-- The double nearest to `num / den`; `none` if that is beyond the largest one. -/
def ofRatio? (negative : Bool) (num den : Nat) : Option Binary64 :=
  if num = 0 then
    some (zero negative)
  else
    let e := exponentOf num den
    let m := roundAt num den e
    let rounded : Binary64 := if m = pow2 53 then ⟨negative, pow2 52, e + 1⟩ else ⟨negative, m, e⟩
    if maxExponent < rounded.exponent then none else some rounded

/-- The absolute value as a ratio. -/
def ratio (d : Binary64) : Nat × Nat :=
  if 0 ≤ d.exponent then (d.mantissa * pow2 d.exponent.toNat, 1)
  else (d.mantissa, pow2 (-d.exponent).toNat)

/-- The product, rounded. -/
def mul? (a b : Binary64) : Option Binary64 :=
  ofRatio? (a.negative != b.negative) (a.ratio.1 * b.ratio.1) (a.ratio.2 * b.ratio.2)

/-- The quotient, rounded; the divisor is not zero. -/
def div? (a b : Binary64) : Option Binary64 :=
  ofRatio? (a.negative != b.negative) (a.ratio.1 * b.ratio.2) (a.ratio.2 * b.ratio.1)

/-- The double nearest to `10 ^ k`. -/
def pow10? (k : Nat) : Option Binary64 :=
  ofRatio? false (pow10 k) 1

/-- How many decimal digits the number has. -/
def digitCount (n : Nat) : Nat :=
  (Nat.toDigits 10 n).length

/-- The double nearest to `digits * 10 ^ e`. Far beyond the range of doubles no power is computed. -/
def ofDecimal? (negative : Bool) (digits : Nat) (e : Int) : Option Binary64 :=
  let magnitude := e + digitCount digits
  if digits = 0 ∨ magnitude < -400 then some (zero negative)
  else if 400 < magnitude then none
  else if 0 ≤ e then ofRatio? negative (digits * pow10 e.toNat) 1
  else ofRatio? negative digits (pow10 (-e).toNat)

/-- The quotient with the double of a power of ten. -/
def divPow10? (d : Binary64) (k : Nat) : Option Binary64 :=
  (pow10? k).bind d.div?

/-- Divides `n` times by `10 ^ 308`, as long as something is left of the number. -/
def scaleDown : Nat → Binary64 → Option Binary64
  | 0, d => some d
  | n + 1, d => if d.mantissa = 0 then some d else (d.divPow10? 308).bind (scaleDown n)

/-- `significand * 10 ^ e` by steps that each round: the significand to a double, then its product or
quotients with doubles of powers of ten, none above `10 ^ 308`. It may differ from the nearest double
in the last place. -/
def ofScaled? (negative : Bool) (significand : Nat) (e : Int) : Option Binary64 := do
  let d ← ofRatio? negative significand 1
  if 308 < e then
    if significand = 0 then some d else none
  else if 0 ≤ e then
    d.mul? (← pow10? e.toNat)
  else
    let down := (-e).toNat
    let steps := (down - 1) / 308
    (← scaleDown steps d).divPow10? (down - 308 * steps)

example : ofDecimal? false 1 (-1) = some ⟨false, 7205759403792794, -56⟩ := by decide +kernel
example : ofDecimal? false 2 308 = none := by decide +kernel
example : ofDecimal? true 5 (-324) = some ⟨true, 1, -1074⟩ := by decide +kernel
example : ofScaled? false 5 (-1) = some ⟨false, pow2 52, -53⟩ := by decide +kernel

end Binary64

end ScopeActions
