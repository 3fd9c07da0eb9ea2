import AccessRules.Double.Basic
import AccessRules.Field
import AccessRules.Operator

/-! Single conditions on fields. -/
namespace AccessRules

/-- A list element. -/
inductive Literal where
  | string (s : String)
  | number (x : Double)
deriving DecidableEq, BEq

/-- An operand of a comparison. -/
inductive Scalar where
  | string (s : String)
  | number (x : Double)
  | param (name : String)
deriving DecidableEq, BEq

def Literal.toScalar : Literal → Scalar
  | .string s => .string s
  | .number x => .number x

/-- What a distance is measured to. -/
inductive Target where
  | point (latitude longitude : Double)
  | field (f : Field)
deriving DecidableEq, BEq

/-- What a condition asks of its field. -/
inductive Test where
  | isTrue
  | within (unit : TimeUnit) (amount : Double)
  | compareNumber (op : Comparison) (value : Double)
  | inNumbers (values : List Double)
  | isInteger
  | isFloat
  | compareString (op : Comparison) (value : Scalar)
  | stringSize (op : Comparison) (value : Double)
  | inStrings (values : List String)
  | distance (target : Target) (op : Comparison) (value : Double)
  | mapSize (op : Comparison) (value : Double)
  | mapGet (key : Segment) (op : Comparison) (value : Scalar)
  | mapKeys (op : SetOperation) (keys : List String)
  | mapValues (op : SetOperation) (values : List Literal)
  | listSize (op : Comparison) (value : Double)
  | listGet (index : UInt64) (op : Comparison) (value : Scalar)
  | listSet (op : SetOperation) (values : List Literal)
deriving DecidableEq, BEq

/-- The kind of value that a condition is about. -/
inductive Category where
  | boolean
  | timestamp
  | number
  | string
  | geo
  | map
  | list
deriving DecidableEq

instance : Token Category where
  all := [.boolean, .timestamp, .number, .string, .geo, .map, .list]
  token
    | .boolean => "boolean"
    | .timestamp => "timestamp"
    | .number => "number"
    | .string => "string"
    | .geo => "geo"
    | .map => "map"
    | .list => "list"

def Test.category : Test → Category
  | .isTrue => .boolean
  | .within .. => .timestamp
  | .compareNumber .. | .inNumbers .. | .isInteger | .isFloat => .number
  | .compareString .. | .stringSize .. | .inStrings .. => .string
  | .distance .. => .geo
  | .mapSize .. | .mapGet .. | .mapKeys .. | .mapValues .. => .map
  | .listSize .. | .listGet .. | .listSet .. => .list

/-- A test of one field. -/
structure Condition where
  field : Field
  test : Test
deriving DecidableEq, BEq

def Condition.category (c : Condition) : Category := c.test.category

end AccessRules
