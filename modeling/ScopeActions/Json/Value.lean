import ScopeActions.Assoc
import ScopeActions.Decimal.Binary64

/-!
# JSON values

Numbers are of two kinds: integers from `-2^63` to `2^64 - 1`, and doubles. The fields of an object
keep the order in which they were written. A text may repeat a key; `Json.canonical` gives the value
with each key once, at its first place and with its last value.
-/

namespace ScopeActions

/-- A JSON value. -/
inductive Json where
  | null
  | bool (b : Bool)
  | int (n : Int)
  | double (d : Binary64)
  | str (s : String)
  | arr (items : List Json)
  | obj (fields : List (String × Json))
  deriving Inhabited, Repr

namespace Json

mutual

/-- The value with every repeated key merged into its first place. -/
def canonical : Json → Json
  | null => null
  | bool b => bool b
  | int n => int n
  | double d => double d
  | str s => str s
  | arr items => arr (canonicalItems items)
  | obj fields => obj (Assoc.ofList (canonicalFields fields))

/-- `canonical` on the items of an array. -/
def canonicalItems : List Json → List Json
  | [] => []
  | v :: vs => canonical v :: canonicalItems vs

/-- `canonical` on the values of fields. -/
def canonicalFields : List (String × Json) → List (String × Json)
  | [] => []
  | (k, v) :: fields => (k, canonical v) :: canonicalFields fields

end

/-- A field of an object; nothing for any other value. -/
def field? (v : Json) (key : String) : Option Json :=
  match v with
  | obj fields => Assoc.get? fields key
  | _ => none

/-- A list of texts. -/
def strings (ss : List String) : Json :=
  arr (ss.map str)

/-- A natural number. -/
def nat (n : Nat) : Json :=
  int n

/-- The text of a string value. -/
def str? : Json → Option String
  | str s => some s
  | _ => none

/-- The items of an array. -/
def arr? : Json → Option (List Json)
  | arr items => some items
  | _ => none

/-- The texts of an array of strings. -/
def strings? (v : Json) : Option (List String) := do
  (← v.arr?).mapM str?

/-- The largest index a 64-bit machine can hold. -/
def maxIndex : Nat := pow2 64 - 1

/-- A natural number of at most 64 bits. -/
def index? : Json → Option Nat
  | int n => if 0 ≤ n ∧ n ≤ maxIndex then some n.toNat else none
  | _ => none

end Json

end ScopeActions
