import AccessRules.Double.Display
import AccessRules.Group
import AccessRules.Json.Fault
import AccessRules.Json.Printer
import AccessRules.Report

/-! Why a description of a condition is refused. -/
namespace AccessRules

/-- What does not fit about a JSON value in tuple form. -/
inductive Mismatch where
  | condition
  | tuple
  | field
  | fieldShape
  | localField
  | path
  | segment
  | number
  | token
  | comparison
  | setOperation
  | timeUnit
  | connective
  | scalar
  | literal
  | literals
  | string
  | strings
  | target
  | listIndex
  | choices
  | mixedChoices
  | diff
  | shape (word : String)
  | ordering (op : Comparison)
  | group
  | groupKey (key : String)
  | noOperation
  | noConditions
  | conditions

def Mismatch.text : Mismatch → String
  | .condition => "expected a condition"
  | .tuple => "expected [field, token, operands...]"
  | .field => "expected a field reference"
  | .fieldShape => "expected [\"field\", path], [\"doc\", path, field] or [\"updateField\", path]"
  | .localField => "expected a [\"field\", path] reference"
  | .path => "expected a list of path segments"
  | .segment => "expected a path segment or [\"param\", name]"
  | .number => "expected a number"
  | .token => "expected an operator token"
  | .comparison => "expected a comparison operator (==, !==, <, >, <=, >=)"
  | .setOperation => "expected a set operation (hasAll, hasAny, hasOnly)"
  | .timeUnit => "expected a time unit (seconds, minutes, hours, days)"
  | .connective => "expected && or ||"
  | .scalar => "expected a string, number or [\"param\", name]"
  | .literal => "expected a string or number literal"
  | .literals => "expected a list of literals"
  | .string => "expected a string"
  | .strings => "expected a list of strings"
  | .target => "expected [\"latlng\", lat, lng] or a field reference"
  | .listIndex => "expected a non-negative list index"
  | .choices => "expected a list for 'in'"
  | .mixedChoices => "expected 'in' over all numbers or all strings"
  | .diff => "map diff conditions are not supported"
  | .shape word => "unrecognized condition shape for token '" ++ word ++ "'"
  | .ordering op => "'" ++ Token.token op ++ "' compares numbers only"
  | .group => "expected a condition group object"
  | .groupKey key => "unexpected group key '" ++ key ++ "'"
  | .noOperation => "missing group 'operation'"
  | .noConditions => "missing group 'conditions'"
  | .conditions => "expected a list of conditions"

/-- Why a condition or a group cannot be read, built or rendered. -/
inductive Malformed where
  | notJson (error : Json.Error)
  | mismatch (what : Mismatch) (found : Json)
  | emptyPath
  | emptyGroup
  | updateTarget (path : Path)
  | notFinite (x : Double)
  | stringOrdering (op : Comparison)
  | stringNumber (x : Double)

namespace Malformed

def payload : Malformed → String
  | .notJson error => error.message
  | .mismatch what found => what.text ++ ", found " ++ found.text
  | .emptyPath => "a path needs at least one segment"
  | .emptyGroup => "a condition group needs at least one condition"
  | .updateTarget path => "update-target field '" ++ path.display ++ "' has no rule-language rendering"
  | .notFinite x => "number " ++ x.display ++ " has no rule-language form"
  | .stringOrdering op =>
    "string comparison only supports == and !==, found '" ++ Token.token op ++ "'"
  | .stringNumber x => "string comparison against number " ++ x.display

def report (m : Malformed) : Report := ⟨m.payload⟩

def message (m : Malformed) : String := m.report.message

end Malformed

/-- A path needs a segment. -/
def Path.ofList : List Segment → Except Malformed Path
  | [] => .error .emptyPath
  | s :: ss => .ok ⟨s :: ss, List.cons_ne_nil s ss⟩

/-- A group needs a member. -/
def Group.ofList (connective : Connective) (members : List Member) : Except Malformed Group :=
  match Members.ofList? members with
  | none => .error .emptyGroup
  | some ms => .ok ⟨connective, ms⟩

end AccessRules
