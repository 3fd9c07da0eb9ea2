import AccessRules.Group

/-! Names that are identifiers, and conditions whose names and strings can be told apart from the
text around them. -/
namespace AccessRules

def isNameStart (c : Char) : Bool := c.isAlpha || c == '_'

def isNameChar (c : Char) : Bool := c.isAlphanum || c == '_'

/-- A nonempty name of letters, digits and underscores that does not start with a digit. -/
def isName (s : String) : Bool :=
  match s.toList with
  | [] => false
  | c :: cs => isNameStart c && cs.all isNameChar

theorem isNameChar_of_isNameStart {c : Char} (h : isNameStart c = true) : isNameChar c = true := by
  simp only [isNameStart, isNameChar, Char.isAlphanum, Bool.or_eq_true] at h ⊢
  rcases h with h | h
  · exact Or.inl (Or.inl h)
  · exact Or.inr h

theorem not_isNameStart_of_isDigit {c : Char} (h : c.isDigit = true) : isNameStart c = false := by
  have hc : c.val.toNat ≤ 57 := by
    simp only [Char.isDigit, Bool.and_eq_true, decide_eq_true_eq, UInt32.le_iff_toNat_le] at h
    exact h.2
  have hd (d : Char) (hd : 57 < d.val.toNat) : ¬ c.val ≥ d.val := by
    rw [ge_iff_le, UInt32.le_iff_toNat_le]
    omega
  apply Bool.eq_false_iff.mpr
  intro hs
  rcases Bool.or_eq_true_iff.mp hs with hs | hs
  · rcases Bool.or_eq_true_iff.mp hs with hs | hs
    · exact hd 'A' (by decide) (of_decide_eq_true hs).1
    · exact hd 'a' (by decide) (of_decide_eq_true (Bool.and_eq_true_iff.mp hs).1)
  · obtain rfl := eq_of_beq hs
    cases h

theorem exists_of_isName {s : String} (h : isName s = true) :
    ∃ c cs, s.toList = c :: cs ∧ isNameStart c = true := by
  unfold isName at h
  split at h
  next => cases h
  next c cs hs => exact ⟨c, cs, hs, (Bool.and_eq_true_iff.mp h).1⟩

theorem isNameChar_of_mem {s : String} (h : isName s = true) :
    ∀ c ∈ s.toList, isNameChar c = true := by
  unfold isName at h
  split at h
  next => cases h
  next c cs hs =>
    obtain ⟨hc, hcs⟩ := Bool.and_eq_true_iff.mp h
    rw [hs]
    exact List.forall_mem_cons.mpr ⟨isNameChar_of_isNameStart hc, List.all_eq_true.mp hcs⟩

def Field.segments : Field → List Segment
  | .here path | .updated path => path.segments
  | .elsewhere document path => document.segments ++ path.segments

/-- A string without a quote, a parameter that is an identifier, or a number. -/
def Scalar.Plain : Scalar → Prop
  | .string s => '"' ∉ s.toList
  | .param name => isName name = true
  | .number _ => True

namespace Target

def segments : Target → List Segment
  | .point .. => []
  | .field f => f.segments

def operands : Target → List Scalar
  | .point latitude longitude => [.number latitude, .number longitude]
  | .field _ => []

end Target

namespace Test

/-- The keys and path segments in a test. -/
def segments : Test → List Segment
  | .mapGet key _ _ => [key]
  | .distance target _ _ => target.segments
  | _ => []

/-- Every operand and list element of a test, in order. -/
def operands : Test → List Scalar
  | .isTrue | .isInteger | .isFloat => []
  | .within _ x | .compareNumber _ x | .stringSize _ x | .mapSize _ x | .listSize _ x => [.number x]
  | .inNumbers xs => xs.map .number
  | .inStrings values | .mapKeys _ values => values.map .string
  | .compareString _ value | .mapGet _ _ value | .listGet _ _ value => [value]
  | .distance target _ x => target.operands ++ [.number x]
  | .mapValues _ items | .listSet _ items => items.map Literal.toScalar

end Test

namespace Condition

def segments (c : Condition) : List Segment := c.field.segments ++ c.test.segments

/-- Every name in the condition is an identifier, and no string in it has a quote. -/
def Plain (c : Condition) : Prop :=
  (∀ s ∈ c.segments, isName s.name = true) ∧ ∀ v ∈ c.test.operands, v.Plain

instance : DecidablePred Scalar.Plain
  | .string s => inferInstanceAs (Decidable ('"' ∉ s.toList))
  | .param name => inferInstanceAs (Decidable (isName name = true))
  | .number _ => isTrue trivial

instance : DecidablePred Plain := fun _ => inferInstanceAs (Decidable (_ ∧ _))

end Condition

mutual

def Member.conditions : Member → List Condition
  | .condition c => [c]
  | .group _ ms => ms.conditions

def Members.conditions : Members → List Condition
  | .last m => m.conditions
  | .cons m ms => m.conditions ++ ms.conditions

end

def Group.Plain (g : Group) : Prop := ∀ c ∈ g.members.conditions, c.Plain

instance : DecidablePred Group.Plain := fun g =>
  inferInstanceAs (Decidable (∀ c ∈ g.members.conditions, c.Plain))

end AccessRules
