import AccessRules.Json.Basic

/-! Refusals as they are reported. -/
namespace AccessRules

/-- A refusal, with what is wrong as text. -/
structure Report where
  payload : String
deriving DecidableEq

namespace Report

def kind : String := "MalformedCondition"

def message (r : Report) : String := "malformed condition: " ++ r.payload

/-- An object with the payload under the kind. -/
def toJson (r : Report) : Json := .object [(kind, .string r.payload)]

def ofJson? : Json → Option Report
  | .object [(key, .string payload)] => if key = kind then some ⟨payload⟩ else none
  | _ => none

end Report

end AccessRules
