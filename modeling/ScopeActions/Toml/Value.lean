import ScopeActions.Decimal.Shortest
import ScopeActions.Sorted

/-!
# TOML values

Tables are sorted by key. `Toml.merge` lays one table over another: tables on both sides are merged key
by key, and anything else on the upper side takes the place of what is below.
-/

namespace ScopeActions

/-- A floating-point value. -/
inductive TomlFloat where
  | finite (d : Binary64)
  | infinite (negative : Bool)
  | nan
  deriving DecidableEq, Repr

/-- The text of a floating-point value: the shortest decimal, with an exponent below `10^-4` and from
`10^16` on. -/
def TomlFloat.toText : TomlFloat → String
  | .finite d => d.toText ⟨-4, 15, false⟩
  | .infinite negative => if negative then "-inf" else "inf"
  | .nan => "NaN"

/-- A TOML value. Date-times are kept as texts. -/
inductive Toml where
  | str (s : String)
  | int (n : Int)
  | float (f : TomlFloat)
  | bool (b : Bool)
  | datetime (text : String)
  | arr (items : List Toml)
  | table (fields : List (String × Toml))
  deriving Inhabited, Repr

namespace Toml

/-- The fields of a table. -/
def table? : Toml → Option (List (String × Toml))
  | table fields => some fields
  | _ => none

mutual

/-- `upper` laid over the value of a key below it, if there is one. -/
def layOn (below : Option Toml) : Toml → Toml
  | table upper =>
    match below with
    | some (table lower) => table (merge lower upper)
    | _ => table upper
  | v => v

/-- Lays the fields of a table over those of another, one after the other. -/
def merge (lower : List (String × Toml)) : List (String × Toml) → List (String × Toml)
  | [] => lower
  | (key, v) :: upper => merge (SortedMap.set lower key (layOn (SortedMap.get? lower key) v)) upper

end

end Toml

end ScopeActions
