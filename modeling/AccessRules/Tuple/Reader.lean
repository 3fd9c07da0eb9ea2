import AccessRules.Malformed
import AccessRules.Tuple.Verb

/-! Reading tuple form. Of several faults the first one met is reported. -/
namespace AccessRules

namespace Json

def expectArray (what : Mismatch) : Json → Except Malformed (List Json)
  | .array items => .ok items
  | v => .error (.mismatch what v)

def expectNumber : Json → Except Malformed Double
  | .number n => .ok n.toDouble
  | v => .error (.mismatch .number v)

def expectString (what : Mismatch) : Json → Except Malformed String
  | .string s => .ok s
  | v => .error (.mismatch what v)

def expectToken {α : Type} [Token α] (what : Mismatch) (v : Json) : Except Malformed α := do
  match Token.ofString? (← v.expectString .token) with
  | some a => .ok a
  | none => .error (.mismatch what v)

def param? : Json → Option String
  | .array [.string tag, .string name] => if tag = "param" then some name else none
  | _ => none

def isNumber : Json → Bool
  | .number _ => true
  | _ => false

def isString : Json → Bool
  | .string _ => true
  | _ => false

/-- The value is tagged as a field reference. -/
def isField : Json → Bool
  | .array (.string tag :: _) => tag == "field" || tag == "doc" || tag == "updateField"
  | _ => false

end Json

def Segment.ofJson (v : Json) : Except Malformed Segment :=
  match v with
  | .string name => .ok (.literal name)
  | v =>
    match v.param? with
    | some name => .ok (.param name)
    | none => .error (.mismatch .segment v)

def Path.ofJson (v : Json) : Except Malformed Path := do
  let items ← v.expectArray .path
  Path.ofList (← items.mapM Segment.ofJson)

/-- The path in a reference to the document under evaluation. -/
def Path.ofLocal (v : Json) : Except Malformed Path :=
  match v with
  | .array [.string tag, path] =>
    if tag = "field" then Path.ofJson path else .error (.mismatch .localField v)
  | v => .error (.mismatch .localField v)

def Field.ofJson (v : Json) : Except Malformed Field :=
  match v with
  | .array [.string tag, path] =>
    if tag = "field" then .here <$> Path.ofJson path
    else if tag = "updateField" then .updated <$> Path.ofJson path
    else .error (.mismatch .fieldShape v)
  | .array [.string tag, document, field] =>
    if tag = "doc" then do return .elsewhere (← Path.ofJson document) (← Path.ofLocal field)
    else .error (.mismatch .fieldShape v)
  | .array _ => .error (.mismatch .fieldShape v)
  | _ => .error (.mismatch .field v)

def Literal.ofJson : Json → Except Malformed Literal
  | .string s => .ok (.string s)
  | .number n => .ok (.number n.toDouble)
  | v => .error (.mismatch .literal v)

def Scalar.ofJson (v : Json) : Except Malformed Scalar :=
  match v with
  | .string s => .ok (.string s)
  | .number n => .ok (.number n.toDouble)
  | v =>
    match v.param? with
    | some name => .ok (.param name)
    | none => .error (.mismatch .scalar v)

def Target.ofJson (v : Json) : Except Malformed Target :=
  match v with
  | .array [.string tag, latitude, longitude] =>
    if tag = "latlng" then do
      return .point (← latitude.expectNumber) (← longitude.expectNumber)
    else ofField v
  | v => ofField v
where
  ofField (v : Json) : Except Malformed Target :=
    if v.isField then .field <$> Field.ofJson v else .error (.mismatch .target v)

def Literal.listOfJson (v : Json) : Except Malformed (List Literal) := do
  (← v.expectArray .literals).mapM Literal.ofJson

def Json.expectStrings (v : Json) : Except Malformed (List String) := do
  (← v.expectArray .strings).mapM (Json.expectString .string)

namespace Test

/-- A list of numbers or a list of strings; the empty list counts as numbers. -/
def ofChoices (v : Json) : Except Malformed Test := do
  let items ← v.expectArray .choices
  if items.all Json.isNumber then return .inNumbers (← items.mapM Json.expectNumber)
  else if items.all Json.isString then return .inStrings (← v.expectStrings)
  else throw (.mismatch .mixedChoices v)

/-- Numbers admit every comparison, strings and parameters only equality. -/
def ofComparison (op : Comparison) (v : Json) : Except Malformed Test := do
  match ← Scalar.ofJson v with
  | .number x => return .compareNumber op x
  | value =>
    if op.isEquality then return .compareString op value
    else throw (.mismatch (.ordering op) v)

/-- A number addresses a list, a name or a parameter a map. -/
def ofGet (key op value : Json) : Except Malformed Test := do
  let op ← op.expectToken .comparison
  let value ← Scalar.ofJson value
  match key with
  | .number n =>
    match n.index? with
    | some index => return .listGet index op value
    | none => throw (.mismatch .listIndex key)
  | key => return .mapGet (← Segment.ofJson key) op value

/-- The test of the tuple `whole` with the given token and operands. -/
def ofTuple (whole : Json) (token : String) (operands : List Json) : Except Malformed Test :=
  match Token.ofString? token, operands with
  | some Verb.within, [unit, amount] => do
    return .within (← unit.expectToken .timeUnit) (← amount.expectNumber)
  | some .isInteger, [] => return .isInteger
  | some .isFloat, [] => return .isFloat
  | some .choice, [list] => ofChoices list
  | some .size, [op, n] => do
    return .stringSize (← op.expectToken .comparison) (← n.expectNumber)
  | some .distance, [target, op, n] => do
    return .distance (← Target.ofJson target) (← op.expectToken .comparison) (← n.expectNumber)
  | some .get, [key, op, value] => ofGet key op value
  | some .keys, [op, list] => do
    return .mapKeys (← op.expectToken .setOperation) (← list.expectStrings)
  | some .values, [op, list] => do
    return .mapValues (← op.expectToken .setOperation) (← Literal.listOfJson list)
  | some .diff, _ => throw (.mismatch .diff whole)
  | some (.set op), [list] => return .listSet op (← Literal.listOfJson list)
  | some (.compare op), [operand] => ofComparison op operand
  | _, _ => throw (.mismatch (.shape token) whole)

end Test

/-- Reads a condition; its category follows from its shape. -/
def Condition.ofJson (v : Json) : Except Malformed Condition :=
  if v.isField then do return ⟨← Field.ofJson v, .isTrue⟩
  else
    match v with
    | .array (field :: token :: operands) => do
      let field ← Field.ofJson field
      let token ← token.expectString .token
      return ⟨field, ← Test.ofTuple v token operands⟩
    | .array _ => throw (.mismatch .tuple v)
    | _ => throw (.mismatch .condition v)

/-- The least key that a group does not know. -/
def unknownKey? : List (String × Json) → Option String
  | [] => none
  | (key, _) :: entries =>
    if key = "operation" ∨ key = "conditions" then unknownKey? entries
    else
      match unknownKey? entries with
      | some least => some (if least < key then least else key)
      | none => some key

/-- The group of an object's entries, given the outcome of reading its members. Keys are checked
first, then the operation, then the members. -/
def Group.ofEntries (entries : List (String × Json)) (members : Except Malformed (List Member)) :
    Except Malformed Group := do
  if let some key := unknownKey? entries then
    throw (.mismatch (.groupKey key) (.object entries))
  let connective ←
    match entries.lookup "operation" with
    | some word => word.expectToken .connective
    | none => throw (.mismatch .noOperation (.object entries))
  Group.ofList connective (← members)

mutual

/-- An object is a group and anything else a condition. -/
def Member.ofJson : Json → Except Malformed Member
  | .object entries =>
    Group.toMember <$> Group.ofEntries entries (membersOfEntries (.object entries) entries)
  | v => .condition <$> Condition.ofJson v

/-- The members under the key for conditions, among the entries of the object `whole`. -/
def membersOfEntries (whole : Json) : List (String × Json) → Except Malformed (List Member)
  | [] => throw (.mismatch .noConditions whole)
  | (key, v) :: entries =>
    if key = "conditions" then
      match v with
      | .array items => membersOfItems items
      | v => throw (.mismatch .conditions v)
    else membersOfEntries whole entries

def membersOfItems : List Json → Except Malformed (List Member)
  | [] => return []
  | v :: vs => do
    let m ← Member.ofJson v
    return m :: (← membersOfItems vs)

end

def Group.ofJson : Json → Except Malformed Group
  | .object entries => Group.ofEntries entries (membersOfEntries (.object entries) entries)
  | v => throw (.mismatch .group v)

end AccessRules
