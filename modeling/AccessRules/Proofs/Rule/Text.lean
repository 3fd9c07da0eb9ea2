import AccessRules.Proofs.Numbers
import AccessRules.Proofs.Outcome
import AccessRules.Rule

/-! Which conditions have rule text, and the text they have. -/
namespace AccessRules

@[simp] theorem Traced.result_liftM {α : Type} (x : Except Malformed α) :
    (liftM x : Traced α).result = x := rfl

def Double.text : Double → String
  | .finite x => if x.IsZero then "0" else x.display
  | x => x.display

theorem Double.rule_eq_ok_iff (x : Double) (s : String) :
    x.rule = .ok s ↔ x.IsFinite ∧ x.text = s := by
  cases x <;> simp [Double.rule, Double.IsFinite, Double.text]

namespace Literal

def text : Literal → String
  | .string s => stringRule s
  | .number x => x.text

def listText (items : List Literal) : String := "[" ++ ",".intercalate (items.map text) ++ "]"

theorem rule_eq_ok_iff (l : Literal) (s : String) :
    l.rule = .ok s ↔ (∀ x ∈ l.numbers, x.IsFinite) ∧ l.text = s := by
  cases l <;> simp [Literal.rule, numbers, text, Double.rule_eq_ok_iff]

theorem listRule_eq_ok_iff (items : List Literal) (s : String) :
    listRule items = .ok s ↔
      (∀ x ∈ items.flatMap numbers, x.IsFinite) ∧ listText items = s := by
  rw [List.forall_mem_flatMap]
  exact Outcome.bind_ok_eq_ok_iff (Outcome.mapM_eq_ok_iff rule_eq_ok_iff items) _ s

end Literal

namespace Scalar

def text : Scalar → String
  | .string s => stringRule s
  | .number x => x.text
  | .param name => name

theorem rule_eq_ok_iff (v : Scalar) (s : String) :
    v.rule = .ok s ↔ (∀ x ∈ v.numbers, x.IsFinite) ∧ v.text = s := by
  cases v <;> simp [Scalar.rule, numbers, text, Double.rule_eq_ok_iff]

end Scalar

namespace Field

def IsStored : Field → Prop
  | .updated _ => False
  | _ => True

def text : Field → String
  | .here path => path.rule
  | .elsewhere document path => document.ruleIn path
  | .updated _ => ""

theorem rule_eq_ok_iff (f : Field) (s : String) : f.rule = .ok s ↔ f.IsStored ∧ f.text = s := by
  cases f <;> simp [Field.rule, IsStored, text]

@[simp] theorem result_render (f : Field) : f.render.result = f.rule := by
  simp only [Field.render, Traced.result_bind, Traced.result_liftM, Traced.result_emit,
    Traced.result_pure]
  cases f.rule <;> rfl

end Field

namespace Target

def pointText (latitude longitude : Double) : String :=
  "latlng.value(" ++ latitude.text ++ ", " ++ longitude.text ++ ")"

def text : Target → String
  | .point latitude longitude => pointText latitude longitude
  | .field f => f.text

/-- A field that a distance is measured to is stored. -/
def IsStored : Target → Prop
  | .field f => f.IsStored
  | _ => True

theorem render_eq_ok_iff (t : Target) (s : String) :
    t.render.result = .ok s ↔ (∀ x ∈ t.numbers, x.IsFinite) ∧ t.IsStored ∧ t.text = s := by
  cases t with
  | point x y =>
    simp only [Target.render, Traced.result_bind, Traced.result_liftM, Traced.result_pure,
      Outcome.bind_eq_ok_iff, Double.rule_eq_ok_iff, numbers, List.forall_mem_cons, IsStored, text]
    constructor
    · rintro ⟨a, ⟨hx, rfl⟩, b, ⟨hy, rfl⟩, hs⟩
      exact ⟨⟨hx, hy, by simp⟩, trivial, Except.ok.inj hs⟩
    · rintro ⟨⟨hx, hy, -⟩, -, rfl⟩
      exact ⟨_, ⟨hx, rfl⟩, _, ⟨hy, rfl⟩, rfl⟩
  | field f => simp [Target.render, numbers, IsStored, text, Field.rule_eq_ok_iff]

end Target

theorem Literal.flatMap_numbers_number (xs : List Double) :
    (xs.map Literal.number).flatMap numbers = xs := by
  induction xs with
  | nil => rfl
  | cons x xs ih => simpa [numbers] using ih

theorem Literal.flatMap_numbers_string (items : List String) :
    (items.map Literal.string).flatMap numbers = [] := by
  induction items with
  | nil => rfl
  | cons s items ih => simp [numbers]

section Templates

variable (field s : String)

def windowText (unit : TimeUnit) (amount : Double) : String :=
  "(request.time.toMillis() - " ++ field ++ ".seconds() * 1000) < duration.value(" ++
    amount.text ++ ", " ++ stringRule unit.code ++ ")"

def sizeText (op : Comparison) (value : Double) : String :=
  comparisonRule (field ++ ".size()") op value.text

def choiceText (items : List Literal) : String := field ++ " in " ++ Literal.listText items

def setText (receiver : String) (op : SetOperation) (items : List Literal) : String :=
  receiver ++ "." ++ Token.token op ++ "(" ++ Literal.listText items ++ ")"

theorem windowRule_eq_ok_iff (unit : TimeUnit) (amount : Double) :
    windowRule field unit amount = .ok s ↔ amount.IsFinite ∧ windowText field unit amount = s :=
  Outcome.bind_ok_eq_ok_iff amount.rule_eq_ok_iff _ s

theorem sizeRule_eq_ok_iff (op : Comparison) (value : Double) :
    sizeRule field op value = .ok s ↔ value.IsFinite ∧ sizeText field op value = s :=
  Outcome.bind_ok_eq_ok_iff value.rule_eq_ok_iff _ s

theorem choiceRule_eq_ok_iff (items : List Literal) :
    choiceRule field items = .ok s ↔
      (∀ x ∈ items.flatMap Literal.numbers, x.IsFinite) ∧ choiceText field items = s :=
  Outcome.bind_ok_eq_ok_iff (Literal.listRule_eq_ok_iff items) _ s

theorem setRule_eq_ok_iff (receiver : String) (op : SetOperation) (items : List Literal) :
    setRule receiver op items = .ok s ↔
      (∀ x ∈ items.flatMap Literal.numbers, x.IsFinite) ∧ setText receiver op items = s :=
  Outcome.bind_ok_eq_ok_iff (Literal.listRule_eq_ok_iff items) _ s

theorem stringComparisonRule_eq_ok_iff (op : Comparison) (value : Scalar) :
    stringComparisonRule field op value = .ok s ↔
      op.isEquality = true ∧ value.IsText ∧ comparisonRule field op value.text = s := by
  cases ho : op.isEquality with
  | false => simp [stringComparisonRule, ho]
  | true => cases value <;> simp [stringComparisonRule, ho, Scalar.IsText, Scalar.rule, Scalar.text]

end Templates

namespace Test

/-- Texts are only tested for equality and only with texts, and a distance needs a stored field. -/
def HasForm : Test → Prop
  | .compareString op value => op.isEquality = true ∧ value.IsText
  | .distance target _ _ => target.IsStored
  | _ => True

def text (field : String) : Test → String
  | .isTrue => field
  | .within unit amount => windowText field unit amount
  | .compareNumber op value => comparisonRule field op value.text
  | .inNumbers values => choiceText field (values.map .number)
  | .isInteger => conversionRule "int" field
  | .isFloat => conversionRule "float" field
  | .compareString op value => comparisonRule field op value.text
  | .stringSize op value | .mapSize op value | .listSize op value => sizeText field op value
  | .inStrings values => choiceText field (values.map .string)
  | .distance target op value =>
    comparisonRule (field ++ ".distance(" ++ target.text ++ ")") op value.text
  | .mapGet key op value => comparisonRule (field ++ key.rule) op value.text
  | .mapKeys op keys => setText (field ++ ".keys()") op (keys.map .string)
  | .mapValues op values => setText (field ++ ".values()") op values
  | .listGet index op value =>
    comparisonRule (field ++ "[" ++ toString index.toNat ++ "]") op value.text
  | .listSet op values => setText (field ++ ".set()") op values

theorem render_eq_ok_iff (field : String) (t : Test) (s : String) :
    (t.render field).result = .ok s ↔
      (∀ x ∈ t.numbers, x.IsFinite) ∧ t.HasForm ∧ t.text field = s := by
  cases t with
  | compareString op value =>
    have hn : value.IsText → ∀ x ∈ value.numbers, x.IsFinite := by
      intro hv x hx
      rw [Scalar.numbers_of_isText hv] at hx
      cases hx
    simp only [Test.render, Traced.result_liftM, stringComparisonRule_eq_ok_iff, numbers, HasForm,
      text]
    constructor
    · rintro ⟨ho, hv, hs⟩
      exact ⟨hn hv, ⟨ho, hv⟩, hs⟩
    · rintro ⟨-, ⟨ho, hv⟩, hs⟩
      exact ⟨ho, hv, hs⟩
  | distance target op x =>
    simp [Test.render, numbers, HasForm, text, Outcome.bind_eq_ok_iff, Double.rule_eq_ok_iff,
      Target.render_eq_ok_iff, or_imp, forall_and, and_assoc, and_left_comm]
  | _ =>
    simp [Test.render, numbers, HasForm, text, Outcome.bind_eq_ok_iff, Double.rule_eq_ok_iff,
      Scalar.rule_eq_ok_iff, windowRule_eq_ok_iff, sizeRule_eq_ok_iff, choiceRule_eq_ok_iff,
      setRule_eq_ok_iff, Literal.flatMap_numbers_number, Literal.flatMap_numbers_string, and_assoc]

end Test

namespace Condition

def Renderable (c : Condition) : Prop :=
  c.field.IsStored ∧ (∀ x ∈ c.test.numbers, x.IsFinite) ∧ c.test.HasForm

def text (c : Condition) : String := c.test.text c.field.text

theorem rule_eq_ok_iff (c : Condition) (s : String) :
    c.rule = .ok s ↔ c.Renderable ∧ c.text = s := by
  simp [Condition.rule, Condition.render, Outcome.bind_eq_ok_iff, Field.rule_eq_ok_iff,
    Test.render_eq_ok_iff, Renderable, text, and_assoc]

end Condition

theorem Double.text_settled (x : Double) : x.settled.text = x.text := by
  cases x with
  | finite x =>
    by_cases hz : x.IsZero
    · have hz' : x.settled.IsZero := hz
      simp only [settled, text, hz, hz', if_true]
    · have hs : x.settled = x := by simp [Finite.settled, hz]
      rw [settled, hs]
  | _ => rfl

theorem Literal.text_settled (l : Literal) : (l.mapNumbers .settled).text = l.text := by
  cases l <;> simp [mapNumbers, text, Double.text_settled]

theorem Literal.listText_settled (items : List Literal) :
    listText (items.map (mapNumbers .settled)) = listText items := by
  simp [listText, Function.comp_def, text_settled]

theorem Scalar.text_settled (v : Scalar) : (v.mapNumbers .settled).text = v.text := by
  cases v <;> simp [mapNumbers, text, Double.text_settled]

theorem Target.text_settled (t : Target) : (t.mapNumbers .settled).text = t.text := by
  cases t with
  | point x y =>
    change "latlng.value(" ++ x.settled.text ++ ", " ++ y.settled.text ++ ")" = _
    rw [Double.text_settled, Double.text_settled]
    rfl
  | field f => rfl

namespace Test

theorem text_settled (field : String) (t : Test) :
    (t.mapNumbers .settled).text field = t.text field := by
  cases t with
  | within unit x =>
    change "(request.time.toMillis() - " ++ field ++ ".seconds() * 1000) < duration.value(" ++
      x.settled.text ++ ", " ++ stringRule unit.code ++ ")" = _
    rw [Double.text_settled]
    rfl
  | inNumbers xs =>
    have hl := Literal.listText_settled (xs.map .number)
    simpa [mapNumbers, text, choiceText, Function.comp_def, Literal.mapNumbers] using hl
  | _ =>
    simp only [mapNumbers, text, sizeText, setText, Double.text_settled, Scalar.text_settled,
      Target.text_settled, Literal.listText_settled]

end Test

section Groups

variable (connective : Connective)

theorem Member.rule_condition (c : Condition) : (Member.condition c).rule = c.rule := by
  rw [Member.rule, Member.render, Condition.rule]

theorem Member.rule_group (ms : Members) :
    (Member.group connective ms).rule = (ms.render connective).result := by
  simp only [Member.rule, Member.render, Traced.result_bind, Traced.result_emit,
    Traced.result_pure]
  cases (ms.render connective).result <;> rfl

theorem Members.render_last_eq_ok_iff (m : Member) (s : String) :
    ((Members.last m).render connective).result = .ok s ↔
      ∃ t, m.rule = .ok t ∧ "(" ++ t ++ ")" = s := by
  simp [Members.render, Member.rule, Outcome.bind_eq_ok_iff]

theorem Members.render_cons_eq_ok_iff (m : Member) (ms : Members) (s : String) :
    ((Members.cons m ms).render connective).result = .ok s ↔
      ∃ t u, m.rule = .ok t ∧ (ms.render connective).result = .ok u ∧
        "(" ++ t ++ ")" ++ connective.separator ++ u = s := by
  simp [Members.render, Member.rule, Outcome.bind_eq_ok_iff]

end Groups

theorem Group.rule_eq (g : Group) : g.rule = g.toMember.rule := rfl

end AccessRules
