import AccessRules.Decimal.Layout

/-! The display text of doubles. -/
namespace AccessRules.Double

/-- The shortest decimal in positional notation, midway cases going up; the sign of zero is shown. -/
def Finite.display (x : Finite) : String :=
  let text := (Decimal.shortest .above x.magnitude).plain
  String.ofList (if x.negative then '-' :: text else text)

def display : Double → String
  | .nan => "NaN"
  | .infinite negative => if negative then "-inf" else "inf"
  | .finite x => x.display

end AccessRules.Double
