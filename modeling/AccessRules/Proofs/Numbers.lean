import AccessRules.Proofs.Double.Exact
import AccessRules.Condition

/-! The numbers in a condition. -/
namespace AccessRules

namespace Literal

def numbers : Literal → List Double
  | .string _ => []
  | .number x => [x]

def mapNumbers (f : Double → Double) : Literal → Literal
  | .string s => .string s
  | .number x => .number (f x)

end Literal

namespace Scalar

def numbers : Scalar → List Double
  | .number x => [x]
  | _ => []

def mapNumbers (f : Double → Double) : Scalar → Scalar
  | .number x => .number (f x)
  | value => value

def IsText : Scalar → Prop
  | .number _ => False
  | _ => True

theorem numbers_of_isText {value : Scalar} (hv : value.IsText) : value.numbers = [] := by
  cases value with
  | number x => exact hv.elim
  | _ => rfl

end Scalar

namespace Target

def numbers : Target → List Double
  | .point latitude longitude => [latitude, longitude]
  | .field _ => []

def mapNumbers (f : Double → Double) : Target → Target
  | .point latitude longitude => .point (f latitude) (f longitude)
  | target => target

end Target

namespace Test

/-- Every number in a test, in the order of its operands. -/
def numbers : Test → List Double
  | .isTrue | .isInteger | .isFloat | .inStrings _ | .mapKeys .. => []
  | .within _ x | .compareNumber _ x | .stringSize _ x | .mapSize _ x | .listSize _ x => [x]
  | .inNumbers xs => xs
  | .compareString _ value | .mapGet _ _ value | .listGet _ _ value => value.numbers
  | .distance target _ x => target.numbers ++ [x]
  | .mapValues _ items | .listSet _ items => items.flatMap Literal.numbers

def mapNumbers (f : Double → Double) : Test → Test
  | .isTrue => .isTrue
  | .within unit x => .within unit (f x)
  | .compareNumber op x => .compareNumber op (f x)
  | .inNumbers xs => .inNumbers (xs.map f)
  | .isInteger => .isInteger
  | .isFloat => .isFloat
  | .compareString op value => .compareString op (value.mapNumbers f)
  | .stringSize op x => .stringSize op (f x)
  | .inStrings values => .inStrings values
  | .distance target op x => .distance (target.mapNumbers f) op (f x)
  | .mapSize op x => .mapSize op (f x)
  | .mapGet key op value => .mapGet key op (value.mapNumbers f)
  | .mapKeys op keys => .mapKeys op keys
  | .mapValues op items => .mapValues op (items.map (Literal.mapNumbers f))
  | .listSize op x => .listSize op (f x)
  | .listGet index op value => .listGet index op (value.mapNumbers f)
  | .listSet op items => .listSet op (items.map (Literal.mapNumbers f))

end Test

section MapNumbers

variable (f : Double → Double)

@[simp] theorem Literal.numbers_mapNumbers (l : Literal) :
    (l.mapNumbers f).numbers = l.numbers.map f := by
  cases l <;> rfl

@[simp] theorem Scalar.numbers_mapNumbers (s : Scalar) :
    (s.mapNumbers f).numbers = s.numbers.map f := by
  cases s <;> rfl

@[simp] theorem Target.numbers_mapNumbers (t : Target) :
    (t.mapNumbers f).numbers = t.numbers.map f := by
  cases t <;> rfl

@[simp] theorem Test.numbers_mapNumbers (t : Test) :
    (t.mapNumbers f).numbers = t.numbers.map f := by
  cases t <;> simp [mapNumbers, numbers, List.map_flatMap, List.flatMap_map]

variable {f}

theorem Literal.mapNumbers_idem (hf : ∀ x, f (f x) = f x) (l : Literal) :
    (l.mapNumbers f).mapNumbers f = l.mapNumbers f := by
  cases l <;> simp [mapNumbers, hf]

theorem Scalar.mapNumbers_idem (hf : ∀ x, f (f x) = f x) (s : Scalar) :
    (s.mapNumbers f).mapNumbers f = s.mapNumbers f := by
  cases s <;> simp [mapNumbers, hf]

theorem Target.mapNumbers_idem (hf : ∀ x, f (f x) = f x) (t : Target) :
    (t.mapNumbers f).mapNumbers f = t.mapNumbers f := by
  cases t <;> simp [mapNumbers, hf]

theorem Test.mapNumbers_idem (hf : ∀ x, f (f x) = f x) (t : Test) :
    (t.mapNumbers f).mapNumbers f = t.mapNumbers f := by
  cases t <;> simp [mapNumbers, hf, Literal.mapNumbers_idem hf, Scalar.mapNumbers_idem hf,
    Target.mapNumbers_idem hf]

end MapNumbers

end AccessRules
