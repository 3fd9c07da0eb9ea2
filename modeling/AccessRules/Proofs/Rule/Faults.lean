import AccessRules.Proofs.Rule.Refusal

/-! Why a condition has no rule text. Its faults are listed in the order in which they are met, and
the first of them is reported. -/
namespace AccessRules

section Faults

/-- A number has text if it is finite. -/
def Double.faults : Double → List Malformed
  | .finite _ => []
  | x => [.notFinite x]

/-- A field that is still to be written has no text. -/
def Field.faults (f : Field) : List Malformed := f.updateTargets.map .updateTarget

def Target.faults : Target → List Malformed
  | .point latitude longitude => latitude.faults ++ longitude.faults
  | .field f => f.faults

/-- The operands are looked at in order. The comparison of a string comes before its operand, and the
operand is not a number. -/
def Test.faults : Test → List Malformed
  | .compareString op value =>
    (if op.isEquality then [] else [.stringOrdering op]) ++ value.numbers.map .stringNumber
  | .distance target _ x => target.faults ++ x.faults
  | t => t.numbers.flatMap Double.faults

/-- The field of the condition comes before its test. -/
def Condition.faults (c : Condition) : List Malformed := c.field.faults ++ c.test.faults

end Faults

section FirstFault

open Outcome

theorem Double.error?_rule (x : Double) : error? x.rule = x.faults.head? := by
  cases x <;> rfl

theorem Field.error?_rule (f : Field) : error? f.rule = f.faults.head? := by
  cases f <;> rfl

theorem Literal.error?_rule (l : Literal) :
    error? l.rule = (l.numbers.flatMap Double.faults).head? := by
  cases l with
  | string s => rfl
  | number x => simpa [Literal.rule, numbers] using x.error?_rule

theorem Literal.error?_listRule (items : List Literal) :
    error? (listRule items) = ((items.flatMap numbers).flatMap Double.faults).head? := by
  have hl : error? (listRule items) = error? (items.mapM Literal.rule) := error?_bind_ok _ _
  rw [hl, error?_mapM, List.flatMap_assoc, List.head?_flatMap]
  simp only [Literal.error?_rule]

theorem Scalar.error?_rule (v : Scalar) :
    error? v.rule = (v.numbers.flatMap Double.faults).head? := by
  cases v with
  | number x => simpa [Scalar.rule, numbers] using x.error?_rule
  | _ => rfl

theorem Target.error?_render (t : Target) : error? t.render.result = t.faults.head? := by
  cases t with
  | point x y =>
    have hy (s : String) : error? (y.rule >>= fun t => .ok ("latlng.value(" ++ s ++ ", " ++ t ++ ")")) =
        y.faults.head? := by
      rw [error?_bind_ok, Double.error?_rule]
    rw [faults, List.head?_append, ← Double.error?_rule, ← error?_bind hy]
    simp [Target.render]
  | field f =>
    rw [Target.render, Field.result_render]
    exact f.error?_rule

section Templates

variable (field : String)

theorem error?_comparisonRule (x : Except Malformed String) (op : Comparison) :
    error? (x >>= fun right => .ok (comparisonRule field op right)) = error? x :=
  error?_bind_ok _ _

theorem error?_windowRule (unit : TimeUnit) (amount : Double) :
    error? (windowRule field unit amount) = amount.faults.head? := by
  have hw : error? (windowRule field unit amount) = error? amount.rule := error?_bind_ok _ _
  rw [hw, Double.error?_rule]

theorem error?_sizeRule (op : Comparison) (value : Double) :
    error? (sizeRule field op value) = value.faults.head? := by
  have hs : error? (sizeRule field op value) = error? value.rule := error?_bind_ok _ _
  rw [hs, Double.error?_rule]

theorem error?_choiceRule (items : List Literal) :
    error? (choiceRule field items) =
      ((items.flatMap Literal.numbers).flatMap Double.faults).head? := by
  have hc : error? (choiceRule field items) = error? (Literal.listRule items) := error?_bind_ok _ _
  rw [hc, Literal.error?_listRule]

theorem error?_setRule (op : SetOperation) (items : List Literal) :
    error? (setRule field op items) =
      ((items.flatMap Literal.numbers).flatMap Double.faults).head? := by
  have hs : error? (setRule field op items) = error? (Literal.listRule items) := error?_bind_ok _ _
  rw [hs, Literal.error?_listRule]

theorem error?_stringComparisonRule (op : Comparison) (value : Scalar) :
    error? (stringComparisonRule field op value) = (Test.compareString op value).faults.head? := by
  cases ho : op.isEquality with
  | false => simp [stringComparisonRule, Test.faults, ho, error?]
  | true =>
    cases value <;>
      simp [stringComparisonRule, Test.faults, ho, error?, Scalar.numbers, Scalar.rule]

end Templates

/-- The text of the field has no part in why a test of it is refused. -/
theorem Test.error?_render (field : String) (t : Test) :
    error? (t.render field).result = t.faults.head? := by
  cases t with
  | isTrue | isInteger | isFloat => rfl
  | compareString op value => exact error?_stringComparisonRule field op value
  | distance target op x =>
    have hx (s : String) :
        error? (x.rule >>= fun right =>
          .ok (comparisonRule (field ++ ".distance(" ++ s ++ ")") op right)) = x.faults.head? := by
      rw [error?_comparisonRule, Double.error?_rule]
    rw [faults, List.head?_append, ← Target.error?_render, ← error?_bind hx]
    simp [Test.render]
  | _ =>
    simp [Test.render, faults, numbers, error?_comparisonRule, error?_windowRule, error?_sizeRule,
      error?_choiceRule, error?_setRule, Double.error?_rule, Scalar.error?_rule,
      Literal.flatMap_numbers_number, Literal.flatMap_numbers_string]

theorem Condition.error?_rule (c : Condition) : error? c.rule = c.faults.head? := by
  have ht (s : String) : error? (c.test.render s).result = c.test.faults.head? :=
    Test.error?_render s c.test
  rw [faults, List.head?_append, ← Field.error?_rule, ← error?_bind ht]
  simp [Condition.rule, Condition.render]

theorem Condition.rule_eq_error_iff (c : Condition) (e : Malformed) :
    c.rule = .error e ↔ c.faults.head? = some e := by
  rw [← error?_rule, error?_eq_some_iff]

example (f : Field) : (⟨f, .distance (.point .nan (.infinite true)) .lt .nan⟩ : Condition).faults =
    f.faults ++ [.notFinite .nan, .notFinite (.infinite true), .notFinite .nan] := rfl

theorem Condition.error?_rule_eq_none_iff (c : Condition) : error? c.rule = none ↔ c.Renderable := by
  rw [error?_eq_none_iff]
  constructor
  · rintro ⟨s, hs⟩
    exact ((c.rule_eq_ok_iff s).mp hs).1
  · intro hc
    exact ⟨c.text, (c.rule_eq_ok_iff c.text).mpr ⟨hc, rfl⟩⟩

end FirstFault

/-- A group has text exactly if each of its conditions has. Otherwise it is refused for the first
condition that has none, whatever follows that condition and however the group is nested. A condition
is refused for the first of its faults. -/
theorem Group.rule_all_or_nothing (g : Group) :
    ((∃ s, g.rule = .ok s) ↔ ∀ c ∈ g.members.conditions, c.Renderable) ∧
    (∀ e, g.rule = .error e ↔
      ∃ before c after, g.members.conditions = before ++ c :: after ∧
        (∀ d ∈ before, d.Renderable) ∧ ¬ c.Renderable ∧ c.rule = .error e) ∧
    (∀ (c : Condition) (e : Malformed), c.rule = .error e ↔ c.faults.head? = some e) := by
  have hg : Outcome.error? g.rule =
      g.members.conditions.findSome? fun c => Outcome.error? c.rule :=
    Member.error?_rule g.toMember
  refine ⟨?_, ?_, Condition.rule_eq_error_iff⟩
  · rw [← Outcome.error?_eq_none_iff, hg, List.findSome?_eq_none_iff]
    simp only [Condition.error?_rule_eq_none_iff]
  · intro e
    rw [← Outcome.error?_eq_some_iff, hg, List.findSome?_eq_some_iff]
    simp only [Condition.error?_rule_eq_none_iff, Outcome.error?_eq_some_iff]
    constructor
    · rintro ⟨before, c, after, hs, he, hb⟩
      have hc : ¬ c.Renderable := by
        rw [← Condition.error?_rule_eq_none_iff, Outcome.error?_eq_some_iff.mpr he]
        exact Option.some_ne_none e
      exact ⟨before, c, after, hs, hb, hc, he⟩
    · rintro ⟨before, c, after, hs, hb, -, he⟩
      exact ⟨before, c, after, hs, he, hb⟩

end AccessRules
