import AccessRules.Proofs.Numbers
import AccessRules.Tuple.Writer
import Mathlib.Data.List.Forall2

/-! The grammar of tuple form: the JSON values that describe conditions and groups, and what each of
them describes. -/
namespace AccessRules

/-- `"name"` or `["param", "name"]`. -/
inductive Segment.TupleForm : Json → Segment → Prop
  | literal (name : String) : TupleForm (.string name) (.literal name)
  | param (name : String) : TupleForm (.array [.string "param", .string name]) (.param name)

/-- A list of segments; a path has at least one. -/
inductive Path.TupleForm : Json → Path → Prop
  | list {items : List Json} {p : Path} (h : List.Forall₂ Segment.TupleForm items p.segments) :
      TupleForm (.array items) p

/-- `["field", path]`, `["doc", path, ["field", path]]` or `["updateField", path]`. -/
inductive Field.TupleForm : Json → Field → Prop
  | here {v : Json} {p : Path} (hp : Path.TupleForm v p) :
      TupleForm (.array [.string "field", v]) (.here p)
  | elsewhere {u v : Json} {d p : Path} (hd : Path.TupleForm u d) (hp : Path.TupleForm v p) :
      TupleForm (.array [.string "doc", u, .array [.string "field", v]]) (.elsewhere d p)
  | updated {v : Json} {p : Path} (hp : Path.TupleForm v p) :
      TupleForm (.array [.string "updateField", v]) (.updated p)

inductive Literal.TupleForm : Json → Literal → Prop
  | string (s : String) : TupleForm (.string s) (.string s)
  | number (n : Json.Number) : TupleForm (.number n) (.number n.toDouble)

inductive Scalar.TupleForm : Json → Scalar → Prop
  | string (s : String) : TupleForm (.string s) (.string s)
  | number (n : Json.Number) : TupleForm (.number n) (.number n.toDouble)
  | param (name : String) : TupleForm (.array [.string "param", .string name]) (.param name)

/-- `["latlng", number, number]` or a field. -/
inductive Target.TupleForm : Json → Target → Prop
  | point (m n : Json.Number) :
      TupleForm (.array [.string "latlng", .number m, .number n]) (.point m.toDouble n.toDouble)
  | field {v : Json} {f : Field} (hf : Field.TupleForm v f) : TupleForm v (.field f)

/-- What may follow the field of a tuple, and the category that it gives the condition. -/
inductive Test.TupleForm : List Json → Category → Test → Prop
  | within (unit : TimeUnit) (n : Json.Number) :
      TupleForm [.string "withinRequest", .ofToken unit, .number n]
        .timestamp (.within unit n.toDouble)
  | isInteger : TupleForm [.string "isInteger"] .number .isInteger
  | isFloat : TupleForm [.string "isFloat"] .number .isFloat
  | inNumbers (ns : List Json.Number) :
      TupleForm [.string "in", .array (ns.map .number)] .number (.inNumbers (ns.map Json.Number.toDouble))
  | inStrings (s : String) (ss : List String) :
      TupleForm [.string "in", .array ((s :: ss).map .string)] .string (.inStrings (s :: ss))
  | stringSize (op : Comparison) (n : Json.Number) :
      TupleForm [.string "size", .ofToken op, .number n] .string (.stringSize op n.toDouble)
  | distance {v : Json} {target : Target} (ht : Target.TupleForm v target) (op : Comparison)
      (n : Json.Number) :
      TupleForm [.string "distanceTo", v, .ofToken op, .number n]
        .geo (.distance target op n.toDouble)
  | mapGet {u v : Json} {key : Segment} {value : Scalar} (hk : Segment.TupleForm u key)
      (op : Comparison) (hv : Scalar.TupleForm v value) :
      TupleForm [.string "get", u, .ofToken op, v] .map (.mapGet key op value)
  | listGet (i : UInt64) (op : Comparison) {v : Json} {value : Scalar}
      (hv : Scalar.TupleForm v value) :
      TupleForm [.string "get", .ofIndex i, .ofToken op, v] .list (.listGet i op value)
  | mapKeys (op : SetOperation) (keys : List String) :
      TupleForm [.string "keys", .ofToken op, .array (keys.map .string)] .map (.mapKeys op keys)
  | mapValues (op : SetOperation) {items : List Json} {values : List Literal}
      (hv : List.Forall₂ Literal.TupleForm items values) :
      TupleForm [.string "values", .ofToken op, .array items] .map (.mapValues op values)
  | listSet (op : SetOperation) {items : List Json} {values : List Literal}
      (hv : List.Forall₂ Literal.TupleForm items values) :
      TupleForm [.ofToken op, .array items] .list (.listSet op values)
  | compareNumber (op : Comparison) (n : Json.Number) :
      TupleForm [.ofToken op, .number n] .number (.compareNumber op n.toDouble)
  | compareString (op : Comparison) (ho : op = .eq ∨ op = .ne) {v : Json} {value : Scalar}
      (hv : Scalar.TupleForm v value) (ht : value.IsText) :
      TupleForm [.ofToken op, v] .string (.compareString op value)

/-- A field, or a list of a field and what may follow it. -/
inductive Condition.TupleForm : Json → Category → Condition → Prop
  | bare {v : Json} {f : Field} (hf : Field.TupleForm v f) : TupleForm v .boolean ⟨f, .isTrue⟩
  | tuple {v : Json} {f : Field} {tail : List Json} {k : Category} {t : Test}
      (hf : Field.TupleForm v f) (ht : Test.TupleForm tail k t) :
      TupleForm (.array (v :: tail)) k ⟨f, t⟩

mutual

/-- A condition, or an object with exactly the keys `"operation"` and `"conditions"`. -/
inductive Member.TupleForm : Json → Member → Prop
  | condition {v : Json} {k : Category} {c : Condition} (hc : Condition.TupleForm v k c) :
      Member.TupleForm v (.condition c)
  | group {entries : List (String × Json)} {connective : Connective} {items : List Json}
      {ms : Members} (hk : ∀ e ∈ entries, e.1 = "operation" ∨ e.1 = "conditions")
      (ho : entries.lookup "operation" = some (.ofToken connective))
      (hc : entries.lookup "conditions" = some (.array items))
      (hm : Members.TupleForm items ms) :
      Member.TupleForm (.object entries) (.group connective ms)

/-- A list of one or more members. -/
inductive Members.TupleForm : List Json → Members → Prop
  | last {v : Json} {m : Member} (hm : Member.TupleForm v m) : Members.TupleForm [v] (.last m)
  | cons {v : Json} {m : Member} {vs : List Json} {ms : Members} (hm : Member.TupleForm v m)
      (hs : Members.TupleForm vs ms) :
      Members.TupleForm (v :: vs) (.cons m ms)

end

def Group.TupleForm (v : Json) (g : Group) : Prop := Member.TupleForm v g.toMember

theorem Test.TupleForm.category_eq {tail : List Json} {k : Category} {t : Test}
    (h : Test.TupleForm tail k t) : t.category = k := by
  cases h <;> rfl

theorem Condition.TupleForm.category_eq {v : Json} {k : Category} {c : Condition}
    (h : Condition.TupleForm v k c) : c.category = k := by
  cases h with
  | bare => rfl
  | tuple hf ht => exact ht.category_eq

theorem Members.tupleForm_iff_forall₂ (items : List Json) (ms : Members) :
    Members.TupleForm items ms ↔ List.Forall₂ Member.TupleForm items ms.toList := by
  constructor
  · intro h
    match h with
    | .last hm => exact .cons hm .nil
    | .cons hm hs => exact .cons hm ((Members.tupleForm_iff_forall₂ _ _).mp hs)
  · intro h
    match ms, h with
    | .last m, .cons hm .nil => exact .last hm
    | .cons m ms, .cons hm hs => exact .cons hm ((Members.tupleForm_iff_forall₂ _ ms).mpr hs)

theorem Condition.TupleForm.exists_items {v : Json} {k : Category} {c : Condition}
    (h : Condition.TupleForm v k c) : ∃ items, v = .array items := by
  cases h with
  | bare hf => cases hf <;> exact ⟨_, rfl⟩
  | tuple => exact ⟨_, rfl⟩

theorem Member.tupleForm_object_iff (entries : List (String × Json)) (m : Member) :
    Member.TupleForm (.object entries) m ↔
      ∃ g : Group, g.toMember = m ∧ (∀ e ∈ entries, e.1 = "operation" ∨ e.1 = "conditions") ∧
        entries.lookup "operation" = some (.ofToken g.connective) ∧
        ∃ items, entries.lookup "conditions" = some (.array items) ∧
          List.Forall₂ Member.TupleForm items g.members.toList := by
  constructor
  · intro h
    cases h with
    | condition hc =>
      obtain ⟨items, hi⟩ := hc.exists_items
      cases hi
    | @group _ connective items ms hk ho hc hm =>
      exact ⟨⟨connective, ms⟩, rfl, hk, ho, items, hc, (Members.tupleForm_iff_forall₂ items ms).mp hm⟩
  · rintro ⟨g, rfl, hk, ho, items, hc, hm⟩
    exact .group hk ho hc ((Members.tupleForm_iff_forall₂ items g.members).mpr hm)

theorem Member.tupleForm_iff_of_not_object {v : Json} (hv : ∀ entries, v ≠ .object entries)
    (m : Member) : Member.TupleForm v m ↔
      ∃ c, Condition.TupleForm v c.category c ∧ .condition c = m := by
  constructor
  · intro h
    cases h with
    | condition hc =>
      refine ⟨_, ?_, rfl⟩
      rwa [hc.category_eq]
    | group => exact (hv _ rfl).elim
  · rintro ⟨c, hc, rfl⟩
    exact .condition hc

end AccessRules
