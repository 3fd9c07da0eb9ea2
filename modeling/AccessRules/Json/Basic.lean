import AccessRules.Double.Basic

/-! JSON values. -/
namespace AccessRules

/-- A JSON number: an integer from `-2 ^ 63` to below `2 ^ 64`, or a finite double. -/
inductive Json.Number where
  | integer (n : Int) (range : -9223372036854775808 ≤ n ∧ n < 18446744073709551616)
  | double (x : Double.Finite)
deriving DecidableEq

/-- A JSON value. The entries of an object are sorted by key. -/
inductive Json where
  | null
  | bool (b : Bool)
  | number (n : Json.Number)
  | string (s : String)
  | array (items : List Json)
  | object (entries : List (String × Json))

namespace Json

/-- Sets the value of a key, keeping the entries sorted. -/
def setEntry (key : String) (value : Json) : List (String × Json) → List (String × Json)
  | [] => [(key, value)]
  | (k, v) :: rest =>
    if key < k then (key, value) :: (k, v) :: rest
    else if key = k then (key, value) :: rest
    else (k, v) :: setEntry key value rest

/-- The object with the given entries; the last value of a repeated key wins. -/
def ofEntries (entries : List (String × Json)) : Json :=
  .object (entries.foldl (fun sorted entry => setEntry entry.1 entry.2 sorted) [])

namespace Number

def toDouble : Number → Double
  | .integer n _ => .ofInt n
  | .double x => .finite x

/-- The integer, if it is one and not negative. -/
def index? : Number → Option UInt64
  | .integer n _ => if 0 ≤ n then some (.ofNat n.toNat) else none
  | .double _ => none

/-- The number of a finite double: a whole number of size up to `2 ^ 63` becomes an integer, for
which `2 ^ 63` itself is taken one lower. -/
def ofFinite (x : Double.Finite) : Number :=
  if h : x.magnitude.Integral ∧ x.magnitude.floor ≤ 9223372036854775808 then
    if x.negative then .integer (-x.magnitude.floor) (by omega)
    else .integer (min x.magnitude.floor 9223372036854775807) (by omega)
  else .double x

end Number

/-- The number of a double, or null where it has none. -/
def ofDouble : Double → Json
  | .finite x => .number (.ofFinite x)
  | _ => .null

def ofStrings (items : List String) : Json := .array (items.map .string)

end Json

end AccessRules
