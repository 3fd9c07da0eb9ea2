import AccessRules.Group
import AccessRules.Json.Basic
import AccessRules.Tuple.Verb

/-! Conditions and groups in tuple form: tagged JSON arrays. -/
namespace AccessRules

def Json.ofToken {α : Type} [Token α] (a : α) : Json := .string (Token.token a)

def Segment.toJson : Segment → Json
  | .literal name => .string name
  | .param name => .ofStrings ["param", name]

def Path.toJson (p : Path) : Json := .array (p.segments.map Segment.toJson)

def Field.toJson : Field → Json
  | .here path => .array [.string "field", path.toJson]
  | .elsewhere document path =>
    .array [.string "doc", document.toJson, .array [.string "field", path.toJson]]
  | .updated path => .array [.string "updateField", path.toJson]

def Literal.toJson : Literal → Json
  | .string s => .string s
  | .number x => .ofDouble x

def Scalar.toJson : Scalar → Json
  | .string s => .string s
  | .number x => .ofDouble x
  | .param name => .ofStrings ["param", name]

def Target.toJson : Target → Json
  | .point latitude longitude =>
    .array [.string "latlng", .ofDouble latitude, .ofDouble longitude]
  | .field f => f.toJson

def Json.ofIndex (i : UInt64) : Json :=
  .number (.integer i.toNat (by have := i.toNat_lt; omega))

/-- The part of the tuple after the field: the verb and its operands. -/
def Test.tail : Test → List Json
  | .isTrue => []
  | .within unit amount => [.ofToken Verb.within, .ofToken unit, .ofDouble amount]
  | .compareNumber op value => [.ofToken (Verb.compare op), .ofDouble value]
  | .inNumbers values => [.ofToken Verb.choice, .array (values.map .ofDouble)]
  | .isInteger => [.ofToken Verb.isInteger]
  | .isFloat => [.ofToken Verb.isFloat]
  | .compareString op value => [.ofToken (Verb.compare op), value.toJson]
  | .stringSize op value => [.ofToken Verb.size, .ofToken op, .ofDouble value]
  | .inStrings values => [.ofToken Verb.choice, .ofStrings values]
  | .distance target op value =>
    [.ofToken Verb.distance, target.toJson, .ofToken op, .ofDouble value]
  | .mapSize op value => [.ofToken Verb.size, .ofToken op, .ofDouble value]
  | .mapGet key op value => [.ofToken Verb.get, key.toJson, .ofToken op, value.toJson]
  | .mapKeys op keys => [.ofToken Verb.keys, .ofToken op, .ofStrings keys]
  | .mapValues op values => [.ofToken Verb.values, .ofToken op, .array (values.map Literal.toJson)]
  | .listSize op value => [.ofToken Verb.size, .ofToken op, .ofDouble value]
  | .listGet index op value => [.ofToken Verb.get, .ofIndex index, .ofToken op, value.toJson]
  | .listSet op values => [.ofToken (Verb.set op), .array (values.map Literal.toJson)]

/-- A field that is only asked to be true stands alone. -/
def Condition.toJson (c : Condition) : Json :=
  match c.test with
  | .isTrue => c.field.toJson
  | test => .array (c.field.toJson :: test.tail)

mutual

def Member.toJson : Member → Json
  | .condition c => c.toJson
  | .group connective ms =>
    .object [("conditions", .array ms.toJsons), ("operation", .ofToken connective)]

def Members.toJsons : Members → List Json
  | .last m => [m.toJson]
  | .cons m ms => m.toJson :: ms.toJsons

end

def Group.toJson (g : Group) : Json := g.toMember.toJson

end AccessRules
