import AccessRules.Operator

/-! The tokens that open the second part of a condition tuple. -/
namespace AccessRules

/-- What a tuple says about its field, before its operands. -/
inductive Verb where
  | within
  | isInteger
  | isFloat
  | choice
  | size
  | distance
  | get
  | keys
  | values
  | diff
  | set (op : SetOperation)
  | compare (op : Comparison)
deriving DecidableEq

instance : Token Verb where
  all := [.within, .isInteger, .isFloat, .choice, .size, .distance, .get, .keys, .values, .diff] ++
    Token.all.map .set ++ Token.all.map .compare
  token
    | .within => "withinRequest"
    | .isInteger => "isInteger"
    | .isFloat => "isFloat"
    | .choice => "in"
    | .size => "size"
    | .distance => "distanceTo"
    | .get => "get"
    | .keys => "keys"
    | .values => "values"
    | .diff => "diff"
    | .set op => Token.token op
    | .compare op => Token.token op

end AccessRules
