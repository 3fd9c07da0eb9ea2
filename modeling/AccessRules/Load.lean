import AccessRules.Json.Reader
import AccessRules.Rule
import AccessRules.Tuple.Reader

/-! Conditions and groups from JSON text. -/
namespace AccessRules

def Json.load (text : String) : Except Malformed Json := (Json.read text).mapError .notJson

def Condition.parse (text : String) : Except Malformed Condition := do
  Condition.ofJson (← Json.load text)

def Group.parse (text : String) : Except Malformed Group := do
  Group.ofJson (← Json.load text)

/-- Reports the shape of a group once it is read. -/
def Group.load (text : String) : Traced Group := do
  let g ← Group.parse text
  .emit (.loaded g.connective g.length g.depth)
  return g

def Condition.loadRule (text : String) : Traced String := do
  (← Condition.parse text).render

def Group.loadRule (text : String) : Traced String := do
  (← Group.load text).render

/-- Why a text does not decode: it is not JSON, or the value is not of the wanted form. -/
inductive DecodeError where
  | notJson (error : Json.Error)
  | malformed (cause : Malformed)

def DecodeError.message : DecodeError → String
  | .notJson error => error.message
  | .malformed cause => cause.message

/-- Decodes the first value of a text before it looks for anything after it. -/
def decode {α : Type} (ofJson : Json → Except Malformed α) (text : String) :
    Except DecodeError α := do
  let (v, rest) ← (Json.readFirst text).mapError .notJson
  let a ← (ofJson v).mapError .malformed
  (Json.readEnd text rest).mapError .notJson
  return a

def Report.parse? (text : String) : Option Report :=
  match Json.read text with
  | .ok v => Report.ofJson? v
  | .error _ => none

end AccessRules
