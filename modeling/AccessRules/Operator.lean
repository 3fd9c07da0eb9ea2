import AccessRules.Token

/-! Operators and units of the condition language. -/
namespace AccessRules

/-- How a value is compared with an operand. -/
inductive Comparison where
  | eq
  | ne
  | lt
  | gt
  | le
  | ge
deriving DecidableEq

namespace Comparison

instance : Token Comparison where
  all := [.eq, .ne, .lt, .gt, .le, .ge]
  token
    | .eq => "=="
    | .ne => "!=="
    | .lt => "<"
    | .gt => ">"
    | .le => "<="
    | .ge => ">="

/-- The comparisons that text admits. -/
def isEquality : Comparison → Bool
  | .eq | .ne => true
  | _ => false

end Comparison

/-- How a collection is compared with a list. -/
inductive SetOperation where
  | hasAll
  | hasAny
  | hasOnly
deriving DecidableEq

instance : Token SetOperation where
  all := [.hasAll, .hasAny, .hasOnly]
  token
    | .hasAll => "hasAll"
    | .hasAny => "hasAny"
    | .hasOnly => "hasOnly"

inductive TimeUnit where
  | seconds
  | minutes
  | hours
  | days
deriving DecidableEq

namespace TimeUnit

instance : Token TimeUnit where
  all := [.seconds, .minutes, .hours, .days]
  token
    | .seconds => "seconds"
    | .minutes => "minutes"
    | .hours => "hours"
    | .days => "days"

/-- The letter for the unit in rule text. -/
def code : TimeUnit → String
  | .seconds => "s"
  | .minutes => "m"
  | .hours => "h"
  | .days => "d"

end TimeUnit

/-- How the members of a group are combined. -/
inductive Connective where
  | and
  | or
deriving DecidableEq

namespace Connective

instance : Token Connective where
  all := [.and, .or]
  token
    | .and => "&&"
    | .or => "||"

/-- What stands between two members in rule text. -/
def separator (c : Connective) : String := " " ++ Token.token c ++ " "

end Connective

end AccessRules
