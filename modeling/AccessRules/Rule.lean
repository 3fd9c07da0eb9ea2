import AccessRules.Trace

/-! Rule text.

Output is exact: single spaces around comparison operators, no blanks inside lists, a dot before a
literal path segment and brackets around a parameter. -/
namespace AccessRules

def Segment.rule : Segment → String
  | .literal name => "." ++ name
  | .param name => "[" ++ name ++ "]"

/-- A place in the document under evaluation. -/
def Path.rule (p : Path) : String := String.join (p.segments.map Segment.rule)

/-- A segment of a document path; parameters are interpolated. -/
def Segment.documentRule : Segment → String
  | .literal name => name
  | .param name => "$(" ++ name ++ ")"

/-- A place in another document, which is fetched by its path. -/
def Path.ruleIn (document path : Path) : String :=
  "get(/databases/$(database)/documents/" ++
    "/".intercalate (document.segments.map Segment.documentRule) ++ ").data" ++ path.rule

/-- A finite number in plain decimal notation; zero has no sign. -/
def Double.rule : Double → Except Malformed String
  | .finite x => .ok (if x.IsZero then "0" else x.display)
  | x => .error (.notFinite x)

/-- Text in double quotes, as it is. -/
def stringRule (s : String) : String := "\"" ++ s ++ "\""

def Literal.rule : Literal → Except Malformed String
  | .string s => .ok (stringRule s)
  | .number x => x.rule

def Scalar.rule : Scalar → Except Malformed String
  | .string s => .ok (stringRule s)
  | .number x => x.rule
  | .param name => .ok name

def Literal.listRule (items : List Literal) : Except Malformed String := do
  return "[" ++ ",".intercalate (← items.mapM Literal.rule) ++ "]"

/-- A field that is still to be written has no rule text. -/
def Field.rule : Field → Except Malformed String
  | .here path => .ok path.rule
  | .elsewhere document path => .ok (document.ruleIn path)
  | .updated path => .error (.updateTarget path)

def Field.render (f : Field) : Traced String := do
  let rule ← f.rule
  .emit (.field rule)
  return rule

def comparisonRule (left : String) (op : Comparison) (right : String) : String :=
  left ++ " " ++ Token.token op ++ " " ++ right

def sizeRule (field : String) (op : Comparison) (value : Double) : Except Malformed String := do
  return comparisonRule (field ++ ".size()") op (← value.rule)

def choiceRule (field : String) (items : List Literal) : Except Malformed String := do
  return field ++ " in " ++ (← Literal.listRule items)

def setRule (receiver : String) (op : SetOperation) (items : List Literal) :
    Except Malformed String := do
  return receiver ++ "." ++ Token.token op ++ "(" ++ (← Literal.listRule items) ++ ")"

/-- The age of the field at the time of the request is within the window. -/
def windowRule (field : String) (unit : TimeUnit) (amount : Double) : Except Malformed String := do
  return "(request.time.toMillis() - " ++ field ++ ".seconds() * 1000) < duration.value(" ++
    (← amount.rule) ++ ", " ++ stringRule unit.code ++ ")"

/-- A field is of a numeric type if conversion to it changes nothing. -/
def conversionRule (conversion field : String) : String :=
  conversion ++ "(" ++ field ++ ") === " ++ field

/-- Strings are only tested for equality, and not with numbers. -/
def stringComparisonRule (field : String) (op : Comparison) (value : Scalar) :
    Except Malformed String := do
  if op.isEquality = false then throw (.stringOrdering op)
  if let .number x := value then throw (.stringNumber x)
  return comparisonRule field op (← value.rule)

def Target.render : Target → Traced String
  | .point latitude longitude => do
    return "latlng.value(" ++ (← latitude.rule) ++ ", " ++ (← longitude.rule) ++ ")"
  | .field f => f.render

def Test.render (field : String) : Test → Traced String
  | .isTrue => return field
  | .within unit amount => windowRule field unit amount
  | .compareNumber op value => return comparisonRule field op (← value.rule)
  | .inNumbers values => choiceRule field (values.map .number)
  | .isInteger => return conversionRule "int" field
  | .isFloat => return conversionRule "float" field
  | .compareString op value => stringComparisonRule field op value
  | .stringSize op value => sizeRule field op value
  | .inStrings values => choiceRule field (values.map .string)
  | .distance target op value => do
    let target ← target.render
    return comparisonRule (field ++ ".distance(" ++ target ++ ")") op (← value.rule)
  | .mapSize op value => sizeRule field op value
  | .mapGet key op value => return comparisonRule (field ++ key.rule) op (← value.rule)
  | .mapKeys op keys => setRule (field ++ ".keys()") op (keys.map .string)
  | .mapValues op values => setRule (field ++ ".values()") op values
  | .listSize op value => sizeRule field op value
  | .listGet index op value =>
    return comparisonRule (field ++ "[" ++ toString index.toNat ++ "]") op (← value.rule)
  | .listSet op values => setRule (field ++ ".set()") op values

namespace Condition

/-- Reports the text of the condition, or why it has none. -/
def render (c : Condition) : Traced String :=
  Traced.reporting (do c.test.render (← c.field.render)) (.condition c.category)
    (.refused c.category)

def rule (c : Condition) : Except Malformed String := c.render.result

end Condition

mutual

/-- A group reports its text after its members, and nothing if one of them has no text. -/
def Member.render : Member → Traced String
  | .condition c => c.render
  | .group connective ms => do
    let rule ← ms.render connective
    .emit (.group connective ms.length rule)
    return rule

/-- Each member in parentheses, with the connective between them. -/
def Members.render (connective : Connective) : Members → Traced String
  | .last m => return "(" ++ (← m.render) ++ ")"
  | .cons m ms => do
    let first ← m.render
    return "(" ++ first ++ ")" ++ connective.separator ++ (← ms.render connective)

end

def Member.rule (m : Member) : Except Malformed String := m.render.result

namespace Group

def render (g : Group) : Traced String := g.toMember.render

def rule (g : Group) : Except Malformed String := g.render.result

end Group

end AccessRules
