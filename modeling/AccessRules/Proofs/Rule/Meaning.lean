import AccessRules.Proofs.Delimited
import AccessRules.Proofs.Rule.Text

/-! What a condition says.

Conditions of several categories say the same thing of their field, and are written alike. Rule text
is an opening, a field or a call on it, and a closing. -/
namespace AccessRules

/-- What is said of a field, whatever the category of its value. -/
inductive Assertion where
  | isTrue
  | within (unit : TimeUnit) (amount : Double)
  | compare (op : Comparison) (value : Scalar)
  | oneOf (items : List Literal)
  | isInteger
  | isFloat
  | size (op : Comparison) (value : Double)
  | distance (target : Target) (op : Comparison) (value : Double)
  | keys (op : SetOperation) (keys : List String)
  | values (op : SetOperation) (items : List Literal)
  | element (index : UInt64) (op : Comparison) (value : Scalar)
  | set (op : SetOperation) (items : List Literal)
deriving DecidableEq

/-- An assertion about one field. -/
structure Meaning where
  field : Field
  assertion : Assertion
deriving DecidableEq

theorem Segment.first_rule (s : Segment) : first s.rule = some '.' ∨ first s.rule = some '[' := by
  cases s with
  | literal name => exact Or.inl (first_append rfl name)
  | param name => exact Or.inr (first_append (first_append rfl name) _)

namespace Path

def child (p : Path) (s : Segment) : Path := ⟨p.segments ++ [s], by simp⟩

theorem eq_of_segments_eq {p q : Path} (h : p.segments = q.segments) : p = q := by
  obtain ⟨ss, hp⟩ := p
  obtain ⟨ts, hq⟩ := q
  simp only at h
  subst h
  rfl

theorem child_inj {p q : Path} {s t : Segment} (h : p.child s = q.child t) : p = q ∧ s = t := by
  obtain ⟨hp, hs⟩ := List.append_inj' (congrArg segments h) rfl
  exact ⟨eq_of_segments_eq hp, List.head_eq_of_cons_eq hs⟩

theorem rule_child (p : Path) (s : Segment) : (p.child s).rule = p.rule ++ s.rule := by
  simp [Path.rule, child]

theorem first_rule (p : Path) : first p.rule = some '.' ∨ first p.rule = some '[' := by
  obtain ⟨s, ss, hs⟩ := List.exists_cons_of_ne_nil p.nonempty
  rw [Path.rule, hs, List.map_cons, String.join_cons]
  rcases s.first_rule with h | h
  · exact Or.inl (first_append h _)
  · exact Or.inr (first_append h _)

theorem first_ruleIn (document p : Path) : first (document.ruleIn p) = some 'g' := by
  have hg : first "get(/databases/$(database)/documents/" = some 'g' := rfl
  exact first_append (first_append (first_append hg _) _) _

end Path

namespace Field

/-- The place one step below the field, in the same document. -/
def child : Field → Segment → Field
  | .here path, s => .here (path.child s)
  | .elsewhere document path, s => .elsewhere document (path.child s)
  | .updated path, s => .updated (path.child s)

theorem isStored_child (f : Field) (s : Segment) : (f.child s).IsStored ↔ f.IsStored := by
  cases f <;> rfl

theorem child_inj {f g : Field} {s t : Segment} (h : f.child s = g.child t) : f = g ∧ s = t := by
  cases f with
  | here p =>
    cases g with
    | here q =>
      obtain ⟨rfl, hs⟩ := Path.child_inj (Field.here.inj h)
      exact ⟨rfl, hs⟩
    | _ => cases h
  | elsewhere d p =>
    cases g with
    | elsewhere e q =>
      obtain ⟨rfl, hp⟩ := Field.elsewhere.inj h
      obtain ⟨rfl, hs⟩ := Path.child_inj hp
      exact ⟨rfl, hs⟩
    | _ => cases h
  | updated p =>
    cases g with
    | updated q =>
      obtain ⟨rfl, hs⟩ := Path.child_inj (Field.updated.inj h)
      exact ⟨rfl, hs⟩
    | _ => cases h

theorem text_child {f : Field} (hf : f.IsStored) (s : Segment) :
    (f.child s).text = f.text ++ s.rule := by
  cases f with
  | here path => exact path.rule_child s
  | elsewhere document path =>
    change _ ++ (path.child s).rule = _ ++ path.rule ++ s.rule
    rw [Path.rule_child, ← String.append_assoc]
  | updated path => exact hf.elim

/-- The text of a stored field starts with a segment or with the fetching of a document. -/
theorem first_text {f : Field} (hf : f.IsStored) :
    first f.text = some '.' ∨ first f.text = some '[' ∨ first f.text = some 'g' := by
  cases f with
  | here path =>
    rcases path.first_rule with h | h
    · exact Or.inl h
    · exact Or.inr (Or.inl h)
  | elsewhere document path => exact Or.inr (Or.inr (document.first_ruleIn path))
  | updated path => exact hf.elim

/-- The field, or a call of a method on it. -/
def called (f : Field) : Option String → Field
  | none => f
  | some method => f.child (.literal method)

end Field

namespace Assertion

def opening : Assertion → String
  | .within .. => "(request.time.toMillis() - "
  | .isInteger => "int("
  | .isFloat => "float("
  | _ => ""

def method : Assertion → Option String
  | .within .. => some "seconds"
  | .size .. => some "size"
  | .distance .. => some "distance"
  | .keys .. => some "keys"
  | .values .. => some "values"
  | .set .. => some "set"
  | _ => none

def comparisonText (op : Comparison) (right : String) : String :=
  " " ++ Token.token op ++ " " ++ right

/-- An operation on the set that a method gives. -/
def setClosing (op : SetOperation) (items : List Literal) : String :=
  "()" ++ ("." ++ Token.token op ++ "(" ++ Literal.listText items ++ ")")

/-- The text after the field or the method's name. -/
def closing (field : String) : Assertion → String
  | .isTrue => ""
  | .within unit amount =>
    "() * 1000) < duration.value(" ++ amount.text ++ ", " ++ stringRule unit.code ++ ")"
  | .compare op value => comparisonText op value.text
  | .oneOf items => " in " ++ Literal.listText items
  | .isInteger | .isFloat => ") === " ++ field
  | .size op value => "()" ++ comparisonText op value.text
  | .distance target op value => "(" ++ target.text ++ ")" ++ comparisonText op value.text
  | .keys op names => setClosing op (names.map .string)
  | .values op items | .set op items => setClosing op items
  | .element index op value =>
    "[" ++ toString index.toNat ++ "]" ++ comparisonText op value.text

end Assertion

def Meaning.text (m : Meaning) : String :=
  m.assertion.opening ++ (m.field.called m.assertion.method).text ++
    m.assertion.closing m.field.text

/-- What a test says of its field. Sizes, choices and comparisons are the same for all categories,
and an entry of a map is the place below it. -/
def Test.meaning (field : Field) : Test → Meaning
  | .isTrue => ⟨field, .isTrue⟩
  | .within unit amount => ⟨field, .within unit amount⟩
  | .compareNumber op value => ⟨field, .compare op (.number value)⟩
  | .inNumbers values => ⟨field, .oneOf (values.map .number)⟩
  | .isInteger => ⟨field, .isInteger⟩
  | .isFloat => ⟨field, .isFloat⟩
  | .compareString op value => ⟨field, .compare op value⟩
  | .stringSize op value | .mapSize op value | .listSize op value => ⟨field, .size op value⟩
  | .inStrings values => ⟨field, .oneOf (values.map .string)⟩
  | .distance target op value => ⟨field, .distance target op value⟩
  | .mapGet key op value => ⟨field.child key, .compare op value⟩
  | .mapKeys op keys => ⟨field, .keys op keys⟩
  | .mapValues op items => ⟨field, .values op items⟩
  | .listGet index op value => ⟨field, .element index op value⟩
  | .listSet op items => ⟨field, .set op items⟩

/-- What a condition says; a zero has no sign. -/
def Condition.meaning (c : Condition) : Meaning := (c.test.mapNumbers .settled).meaning c.field

theorem Field.isStored_called {f : Field} (hf : f.IsStored) (method : Option String) :
    (f.called method).IsStored := by
  cases method with
  | none => exact hf
  | some name => exact (f.isStored_child _).mpr hf

/-- The opening that starts with the character. -/
def Assertion.openingAt : Char → String
  | '(' => "(request.time.toMillis() - "
  | 'i' => "int("
  | 'f' => "float("
  | _ => ""

/-- The first character of the text tells the opening. -/
theorem Meaning.first_text {m : Meaning} (hf : m.field.IsStored) :
    ∃ c, first m.text = some c ∧ m.assertion.opening = Assertion.openingAt c := by
  obtain ⟨f, a⟩ := m
  have hopen {c : Char} (h : first a.opening = some c) : first (⟨f, a⟩ : Meaning).text = some c :=
    first_append (first_append h _) _
  have hfield {c : Char} (ho : a.opening = "") (h : first (f.called a.method).text = some c) :
      first (⟨f, a⟩ : Meaning).text = some c := by
    rw [text, ho, String.empty_append]
    exact first_append h _
  cases a with
  | within unit x =>
    have hc : first "(request.time.toMillis() - " = some '(' := rfl
    exact ⟨'(', hopen hc, rfl⟩
  | isInteger => exact ⟨'i', hopen rfl, rfl⟩
  | isFloat => exact ⟨'f', hopen rfl, rfl⟩
  | _ =>
    rcases Field.first_text (Field.isStored_called hf _) with h | h | h
    · exact ⟨'.', hfield rfl h, rfl⟩
    · exact ⟨'[', hfield rfl h, rfl⟩
    · exact ⟨'g', hfield rfl h, rfl⟩

theorem Meaning.text_uncalled {f : Field} {a : Assertion} (ho : a.opening = "")
    (hm : a.method = none) : (⟨f, a⟩ : Meaning).text = f.text ++ a.closing f.text := by
  simp only [text, ho, hm, Field.called, String.empty_append]

theorem Meaning.text_called {f : Field} (hf : f.IsStored) {a : Assertion} {method : String}
    (ho : a.opening = "") (hm : a.method = some method) :
    (⟨f, a⟩ : Meaning).text = f.text ++ ("." ++ method) ++ a.closing f.text := by
  simp only [text, ho, hm, Field.called, Field.text_child hf, Segment.rule, String.empty_append]

section Templates

variable (field : String)

theorem comparisonRule_eq (op : Comparison) (right : String) :
    comparisonRule field op right = field ++ Assertion.comparisonText op right := by
  simp only [comparisonRule, Assertion.comparisonText, String.append_assoc]

theorem sizeText_eq (op : Comparison) (value : Double) :
    sizeText field op value =
      field ++ ("." ++ "size") ++ ("()" ++ Assertion.comparisonText op value.text) := by
  have hc : ".size()" = "." ++ "size" ++ "()" := rfl
  rw [sizeText, comparisonRule_eq, hc]
  simp only [String.append_assoc]

theorem setText_eq {call method : String} (hc : call = "." ++ method ++ "()") (op : SetOperation)
    (items : List Literal) :
    setText (field ++ call) op items =
      field ++ ("." ++ method) ++ Assertion.setClosing op items := by
  rw [hc]
  simp only [setText, Assertion.setClosing, String.append_assoc]

theorem distanceText_eq (target : String) (op : Comparison) (right : String) :
    comparisonRule (field ++ ".distance(" ++ target ++ ")") op right =
      field ++ ("." ++ "distance") ++
        ("(" ++ target ++ ")" ++ Assertion.comparisonText op right) := by
  have hc : ".distance(" = "." ++ "distance" ++ "(" := rfl
  rw [comparisonRule_eq, hc]
  simp only [String.append_assoc]

theorem windowText_eq (unit : TimeUnit) (amount : Double) :
    windowText field unit amount = "(request.time.toMillis() - " ++
      (field ++ ("." ++ "seconds")) ++ (Assertion.within unit amount).closing field := by
  have hc : ".seconds() * 1000) < duration.value(" =
      "." ++ "seconds" ++ "() * 1000) < duration.value(" := rfl
  change "(request.time.toMillis() - " ++ field ++ _ ++ _ ++ _ ++ _ ++ _ =
    "(request.time.toMillis() - " ++ (field ++ ("." ++ "seconds")) ++
      ("() * 1000) < duration.value(" ++ amount.text ++ ", " ++ stringRule unit.code ++ ")")
  rw [hc]
  simp only [String.append_assoc]

theorem conversionRule_eq (opening conversion : String) (ho : opening = conversion ++ "(") :
    conversionRule conversion field = opening ++ field ++ (") === " ++ field) := by
  rw [ho]
  simp only [conversionRule, String.append_assoc]

end Templates

theorem Test.text_meaning {f : Field} (hf : f.IsStored) (t : Test) :
    (t.meaning f).text = t.text f.text := by
  cases t with
  | isTrue =>
    rw [meaning, Meaning.text_uncalled rfl rfl]
    exact String.append_empty
  | within unit x =>
    rw [text, windowText_eq]
    change _ ++ (f.child (.literal "seconds")).text ++ _ = _
    rw [Field.text_child hf, Segment.rule]
    rfl
  | compareNumber op x | compareString op x =>
    rw [meaning, Meaning.text_uncalled rfl rfl, text, comparisonRule_eq]
    rfl
  | inNumbers items | inStrings items =>
    rw [meaning, Meaning.text_uncalled rfl rfl, text, choiceText, String.append_assoc]
    rfl
  | isInteger => exact (conversionRule_eq f.text "int(" "int" rfl).symm
  | isFloat => exact (conversionRule_eq f.text "float(" "float" rfl).symm
  | stringSize op x | mapSize op x | listSize op x =>
    rw [meaning, Meaning.text_called hf rfl rfl, text, sizeText_eq]
    rfl
  | distance target op x =>
    rw [meaning, Meaning.text_called hf rfl rfl, text, distanceText_eq]
    rfl
  | mapGet key op value =>
    rw [meaning, Meaning.text_uncalled rfl rfl, text, comparisonRule_eq, Field.text_child hf]
    rfl
  | mapKeys op items | mapValues op items | listSet op items =>
    rw [meaning, Meaning.text_called hf rfl rfl]
    exact (setText_eq f.text rfl op _).symm
  | listGet index op value =>
    rw [meaning, Meaning.text_uncalled rfl rfl, text, comparisonRule_eq]
    change f.text ++ ("[" ++ _ ++ "]" ++ _) = f.text ++ "[" ++ _ ++ "]" ++ _
    simp only [String.append_assoc]

theorem Condition.text_meaning {c : Condition} (hc : c.field.IsStored) :
    c.meaning.text = c.text := by
  rw [meaning, Test.text_meaning hc, Test.text_settled, text]

end AccessRules
