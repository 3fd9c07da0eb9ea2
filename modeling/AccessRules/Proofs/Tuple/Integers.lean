import AccessRules.Proofs.Json.Spelling
import AccessRules.Proofs.Rule.Decimal
import AccessRules.Proofs.Rule.Refusal

/-! Integers of size up to `2 ^ 53` keep their digits from the JSON text of a condition to its rule
text and to its tuple form, wherever they stand in the condition. -/
namespace AccessRules

section Numbers

variable {k : Int}

theorem toList_toString_int (k : Int) :
    (toString k).toList =
      if k < 0 then '-' :: Nat.toDigits 10 k.natAbs else Nat.toDigits 10 k.natAbs := by
  rw [Int.toString_eq_repr, Int.repr_eq_if]
  rcases Int.lt_or_le k 0 with hk | hk
  · have ha : (-k).toNat = k.natAbs := by omega
    rw [if_neg (by omega), if_pos hk, ha, String.toList_append, Nat.toList_repr]
    rfl
  · have ha : k.toNat = k.natAbs := by omega
    rw [if_pos hk, if_neg (by omega), ha, Nat.toList_repr]

/-- Integers of 53 bits are doubles. -/
theorem Double.exists_ofInt_eq_of_le (hk : k.natAbs ≤ 9007199254740992) :
    ∃ m : Magnitude, Double.ofInt k = .finite ⟨decide (k < 0), m⟩ ∧
      m.quanta = k.natAbs * quantaPerOne := by
  obtain ⟨m, -, hq⟩ := Decimal.ofNat?_of_le hk
  refine ⟨m, ?_, hq⟩
  rw [ofInt, ← hq, round_quanta]

variable {m : Magnitude}

theorem Double.Finite.value_integer (hq : m.quanta = k.natAbs * quantaPerOne) :
    Finite.value ⟨decide (k < 0), m⟩ = k := by
  have hone := Double.quantaPerOne_cast_pos
  have hquot : (m.quanta : ℚ) / quantaPerOne = |k| := by
    rw [hq, Nat.cast_mul, mul_div_assoc, div_self hone.ne', mul_one, Nat.cast_natAbs]
  rw [Finite.value, hquot]
  rcases Int.lt_or_le k 0 with hneg | hpos
  · rw [decide_eq_true hneg, if_pos rfl, abs_of_neg hneg, Int.cast_neg, neg_one_mul, neg_neg]
  · rw [decide_eq_false (not_lt.mpr hpos), if_neg Bool.false_ne_true, abs_of_nonneg hpos, one_mul]

theorem Double.rule_integer (hk : k.natAbs ≤ 9007199254740992)
    (hq : m.quanta = k.natAbs * quantaPerOne) :
    (Double.finite ⟨decide (k < 0), m⟩).rule = .ok (toString k) := by
  have hneg : (Finite.settled ⟨decide (k < 0), m⟩).negative = decide (k < 0) := by
    rw [Bool.eq_iff_iff, ← Finite.value_neg_iff, Finite.value_integer hq, decide_eq_true_iff,
      Int.cast_lt_zero]
  rw [Finite.rule_eq_ruleNumeral, Finite.ruleNumeral, hneg, Decimal.chars_numeral,
    Decimal.plain_shortest_integer .above hq hk, ← String.ofList_toList (s := toString k),
    toList_toString_int]
  simp only [decide_eq_true_eq]

theorem Json.ofDouble_integer (range : -9223372036854775808 ≤ k ∧ k < 18446744073709551616)
    (hk : k.natAbs ≤ 9007199254740992) (hq : m.quanta = k.natAbs * quantaPerOne) :
    Json.ofDouble (.finite ⟨decide (k < 0), m⟩) = .number (.integer k range) := by
  have hi : m.Integral := by rw [Magnitude.Integral, hq, Nat.mul_mod_left]
  have hf : m.floor = k.natAbs := by rw [Magnitude.floor, hq, Nat.mul_div_cancel _ quantaPerOne_pos]
  rw [Json.ofDouble, Number.ofFinite, dif_pos ⟨hi, by simp only [hf]; omega⟩]
  simp only [decide_eq_true_eq, hf]
  split
  · congr 2
    omega
  · congr 2
    omega

theorem Json.chars_integer (range : -9223372036854775808 ≤ k ∧ k < 18446744073709551616) :
    (Json.Number.integer k range).chars = (toString k).toList := by
  rw [toList_toString_int]
  rfl

/-- The literal of an integer is read as the integer, whatever follows it. -/
theorem Json.readValue_integer (range : -9223372036854775808 ≤ k ∧ k < 18446744073709551616)
    (depth : Nat) {rest : List Char} (hr : StopsRun Json.extendsNumeral rest) :
    Json.readValue depth ((toString k).toList ++ rest) = .ok (.number (.integer k range), rest) := by
  rw [← Json.chars_integer range, Json.readValue_number depth _ hr,
    (Json.Number.readsBack_integer k range).reparsed_eq]

theorem Json.readsAs_integer (range : -9223372036854775808 ≤ k ∧ k < 18446744073709551616)
    (depth : Nat) :
    Json.ReadsAs depth (toString k).toList (.ok (.number (.integer k range))) :=
  fun _ hr => ⟨[], List.forall_mem_nil _, Json.readValue_integer range depth hr⟩

theorem Json.Hole.read_integer {front back : String} {value : Json → Json}
    (h : Json.Hole Json.maxDepth front.toList back.toList value)
    (range : -9223372036854775808 ≤ k ∧ k < 18446744073709551616) :
    Json.read (front ++ toString k ++ back) = .ok (value (.number (.integer k range))) := by
  have hread := (h.readsAs (Json.readsAs_integer range) nofun).read_eq_ok
  simpa only [String.ofList_append, String.ofList_toList, String.append_assoc] using hread

end Numbers

section Places

/-- The text has that of the number at a fixed place. -/
def Holds (text : Double → String) : Prop := ∃ before after, ∀ x, text x = before ++ x.text ++ after

namespace Holds

variable {text : Double → String}

theorem number : Holds Double.text := ⟨"", "", fun x => by simp⟩

theorem append_left (h : Holds text) (s : String) : Holds fun x => s ++ text x := by
  obtain ⟨before, after, h⟩ := h
  exact ⟨s ++ before, after, fun x => by simp only [h, String.append_assoc]⟩

theorem append_right (h : Holds text) (s : String) : Holds fun x => text x ++ s := by
  obtain ⟨before, after, h⟩ := h
  exact ⟨before, after ++ s, fun x => by simp only [h, String.append_assoc]⟩

theorem intercalate (h : Holds text) (sep : String) (before after : List String) :
    Holds fun x => sep.intercalate (before ++ text x :: after) := by
  induction before with
  | nil =>
    cases after with
    | nil => simpa only [List.nil_append, String.intercalate_singleton] using h
    | cons s after =>
      simp only [List.nil_append, String.intercalate_cons_cons, String.append_assoc]
      exact h.append_right _
  | cons s before ih =>
    have hcons (x : Double) : sep.intercalate (s :: before ++ text x :: after) =
        s ++ (sep ++ sep.intercalate (before ++ text x :: after)) := by
      cases before <;> simp [String.intercalate_cons_cons, String.append_assoc]
    simp only [hcons]
    exact (ih.append_left sep).append_left s

theorem listText (before after : List Literal) :
    Holds fun x => Literal.listText (before ++ .number x :: after) := by
  have h := number.intercalate "," (before.map Literal.text) (after.map Literal.text)
  have ht := (h.append_left "[").append_right "]"
  simpa only [Literal.listText, List.map_append, List.map_cons, Literal.text] using ht

end Holds

/-- A place for a number in a test: what is read with an operand at this place, what is written with
it, and the test. -/
inductive Test.Place : (Json → List Json) → (Json → List Json) → (Double → Test) → Prop
  | within (unit : TimeUnit) :
      Place (fun v => [.string "withinRequest", .ofToken unit, v])
        (fun v => [.string "withinRequest", .ofToken unit, v]) (.within unit)
  | compare (op : Comparison) :
      Place (fun v => [.ofToken op, v]) (fun v => [.ofToken op, v]) (.compareNumber op)
  | size (op : Comparison) :
      Place (fun v => [.string "size", .ofToken op, v])
        (fun v => [.string "size", .ofToken op, v]) (.stringSize op)
  | choice (before after : List Json.Number) :
      Place (fun v => [.string "in", .array (before.map .number ++ v :: after.map .number)])
        (fun v => [.string "in", .array ((before.map Json.Number.toDouble).map .ofDouble ++
          v :: (after.map Json.Number.toDouble).map .ofDouble)])
        (fun x => .inNumbers (before.map Json.Number.toDouble ++
          x :: after.map Json.Number.toDouble))
  | distance {u : Json} {target : Target} (ht : Target.TupleForm u target) (op : Comparison) :
      Place (fun v => [.string "distanceTo", u, .ofToken op, v])
        (fun v => [.string "distanceTo", target.toJson, .ofToken op, v]) (.distance target op)
  | latitude (longitude : Json.Number) (op : Comparison) (n : Json.Number) :
      Place (fun v => [.string "distanceTo", .array [.string "latlng", v, .number longitude],
          .ofToken op, .number n])
        (fun v => [.string "distanceTo",
          .array [.string "latlng", v, .ofDouble longitude.toDouble], .ofToken op,
          .ofDouble n.toDouble])
        (fun x => .distance (.point x longitude.toDouble) op n.toDouble)
  | longitude (latitude : Json.Number) (op : Comparison) (n : Json.Number) :
      Place (fun v => [.string "distanceTo", .array [.string "latlng", .number latitude, v],
          .ofToken op, .number n])
        (fun v => [.string "distanceTo",
          .array [.string "latlng", .ofDouble latitude.toDouble, v], .ofToken op,
          .ofDouble n.toDouble])
        (fun x => .distance (.point latitude.toDouble x) op n.toDouble)
  | mapGet {u : Json} {key : Segment} (hk : Segment.TupleForm u key) (op : Comparison) :
      Place (fun v => [.string "get", u, .ofToken op, v])
        (fun v => [.string "get", key.toJson, .ofToken op, v]) (fun x => .mapGet key op (.number x))
  | listGet (i : UInt64) (op : Comparison) :
      Place (fun v => [.string "get", .ofIndex i, .ofToken op, v])
        (fun v => [.string "get", .ofIndex i, .ofToken op, v])
        (fun x => .listGet i op (.number x))
  | mapValues (op : SetOperation) {us ws : List Json} {before after : List Literal}
      (hb : List.Forall₂ Literal.TupleForm us before)
      (ha : List.Forall₂ Literal.TupleForm ws after) :
      Place (fun v => [.string "values", .ofToken op, .array (us ++ v :: ws)])
        (fun v => [.string "values", .ofToken op,
          .array (before.map Literal.toJson ++ v :: after.map Literal.toJson)])
        (fun x => .mapValues op (before ++ .number x :: after))
  | listSet (op : SetOperation) {us ws : List Json} {before after : List Literal}
      (hb : List.Forall₂ Literal.TupleForm us before)
      (ha : List.Forall₂ Literal.TupleForm ws after) :
      Place (fun v => [.ofToken op, .array (us ++ v :: ws)])
        (fun v => [.ofToken op,
          .array (before.map Literal.toJson ++ v :: after.map Literal.toJson)])
        (fun x => .listSet op (before ++ .number x :: after))

/-- A number of a list stands between two parts of the list. -/
theorem Literal.exists_of_mem_numbers {items : List Json} {values : List Literal}
    (h : List.Forall₂ Literal.TupleForm items values) {x : Double}
    (hx : x ∈ values.flatMap Literal.numbers) :
    ∃ us ws before after, ∃ n : Json.Number, items = us ++ .number n :: ws ∧
      values = before ++ .number n.toDouble :: after ∧ n.toDouble = x ∧
      List.Forall₂ Literal.TupleForm us before ∧ List.Forall₂ Literal.TupleForm ws after := by
  induction h with
  | nil => cases hx
  | @cons v l items values hv hs ih =>
    rw [List.flatMap_cons] at hx
    rcases List.mem_append.mp hx with hx | hx
    · cases hv with
      | string s => cases hx
      | number n =>
        obtain rfl := List.mem_singleton.mp hx
        exact ⟨[], items, [], values, n, rfl, rfl, rfl, .nil, hs⟩
    · obtain ⟨us, ws, before, after, n, rfl, rfl, hn, hb, ha⟩ := ih hx
      exact ⟨v :: us, ws, l :: before, after, n, rfl, rfl, hn, .cons hv hb, ha⟩

namespace Test.Place

variable {read written : Json → List Json} {test : Double → Test}

theorem tupleForm (h : Place read written test) (n : Json.Number) :
    ∃ k, Test.TupleForm (read (.number n)) k (test n.toDouble) := by
  have hlist {us ws : List Json} {before after : List Literal}
      (hb : List.Forall₂ Literal.TupleForm us before)
      (ha : List.Forall₂ Literal.TupleForm ws after) :
      List.Forall₂ Literal.TupleForm (us ++ .number n :: ws)
        (before ++ .number n.toDouble :: after) :=
    List.rel_append hb (.cons (.number n) ha)
  cases h with
  | within unit => exact ⟨_, .within unit n⟩
  | compare op => exact ⟨_, .compareNumber op n⟩
  | size op => exact ⟨_, .stringSize op n⟩
  | choice before after =>
    refine ⟨.number, ?_⟩
    have h := Test.TupleForm.inNumbers (before ++ n :: after)
    simpa only [List.map_append, List.map_cons] using h
  | distance ht op => exact ⟨_, .distance ht op n⟩
  | latitude longitude op value => exact ⟨_, .distance (.point n longitude) op value⟩
  | longitude latitude op value => exact ⟨_, .distance (.point latitude n) op value⟩
  | mapGet hk op => exact ⟨_, .mapGet hk op (.number n)⟩
  | listGet i op => exact ⟨_, .listGet i op (.number n)⟩
  | mapValues op hb ha => exact ⟨_, .mapValues op (hlist hb ha)⟩
  | listSet op hb ha => exact ⟨_, .listSet op (hlist hb ha)⟩

/-- There is a place for every number of a test that is read. -/
theorem exists_of_mem {tail : List Json} {k : Category} {t : Test} (h : Test.TupleForm tail k t)
    {x : Double} (hx : x ∈ t.numbers) :
    ∃ read written test, ∃ n : Json.Number, Place read written test ∧ tail = read (.number n) ∧
      t = test n.toDouble ∧ n.toDouble = x := by
  cases h with
  | isInteger | isFloat | inStrings | mapKeys => cases hx
  | compareString op ho hv ht =>
    rw [Test.numbers, Scalar.numbers_of_isText ht] at hx
    cases hx
  | within unit n =>
    obtain rfl := List.mem_singleton.mp hx
    exact ⟨_, _, _, n, .within unit, rfl, rfl, rfl⟩
  | stringSize op n =>
    obtain rfl := List.mem_singleton.mp hx
    exact ⟨_, _, _, n, .size op, rfl, rfl, rfl⟩
  | compareNumber op n =>
    obtain rfl := List.mem_singleton.mp hx
    exact ⟨_, _, _, n, .compare op, rfl, rfl, rfl⟩
  | inNumbers ns =>
    obtain ⟨n, hn, rfl⟩ := List.mem_map.mp hx
    obtain ⟨before, after, rfl⟩ := List.append_of_mem hn
    refine ⟨_, _, _, n, .choice before after, ?_, ?_, rfl⟩
    · simp only [List.map_append, List.map_cons]
    · simp only [List.map_append, List.map_cons]
  | distance ht op n =>
    rcases List.mem_append.mp hx with hx | hx
    · cases ht with
      | field hf => cases hx
      | point lat lng =>
        rcases List.mem_cons.mp hx with rfl | hx
        · exact ⟨_, _, _, lat, .latitude lng op n, rfl, rfl, rfl⟩
        · obtain rfl := List.mem_singleton.mp hx
          exact ⟨_, _, _, lng, .longitude lat op n, rfl, rfl, rfl⟩
    · obtain rfl := List.mem_singleton.mp hx
      exact ⟨_, _, _, n, .distance ht op, rfl, rfl, rfl⟩
  | mapGet hk op hv =>
    cases hv with
    | number n =>
      obtain rfl := List.mem_singleton.mp hx
      exact ⟨_, _, _, n, .mapGet hk op, rfl, rfl, rfl⟩
    | _ => cases hx
  | listGet i op hv =>
    cases hv with
    | number n =>
      obtain rfl := List.mem_singleton.mp hx
      exact ⟨_, _, _, n, .listGet i op, rfl, rfl, rfl⟩
    | _ => cases hx
  | mapValues op hv =>
    obtain ⟨us, ws, before, after, n, rfl, rfl, hn, hb, ha⟩ := Literal.exists_of_mem_numbers hv hx
    exact ⟨_, _, _, n, .mapValues op hb ha, rfl, rfl, hn⟩
  | listSet op hv =>
    obtain ⟨us, ws, before, after, n, rfl, rfl, hn, hb, ha⟩ := Literal.exists_of_mem_numbers hv hx
    exact ⟨_, _, _, n, .listSet op hb ha, rfl, rfl, hn⟩

theorem toJson_eq (h : Place read written test) (f : Field) (x : Double) :
    Condition.toJson ⟨f, test x⟩ = .array (f.toJson :: written (.ofDouble x)) := by
  cases h with
  | choice | mapValues | listSet =>
    simp only [Condition.toJson, tail, List.map_append, List.map_cons]
    rfl
  | _ => rfl

theorem holds_text (h : Place read written test) (field : String) :
    Holds fun x => (test x).text field := by
  have hcompare (left : String) (op : Comparison) :
      Holds fun x => comparisonRule left op x.text := Holds.number.append_left _
  have hpoint {point : Double → String} (h : Holds point) (op : Comparison) (value : Double) :
      Holds fun x => comparisonRule (field ++ ".distance(" ++ point x ++ ")") op value.text :=
    ((((h.append_left _).append_right ")").append_right " ").append_right _).append_right " "
      |>.append_right _
  cases h with
  | within unit =>
    have h := Holds.number.append_left
      ("(request.time.toMillis() - " ++ field ++ ".seconds() * 1000) < duration.value(")
    exact ((h.append_right ", ").append_right (stringRule unit.code)).append_right ")"
  | compare op => exact hcompare field op
  | size op => exact hcompare (field ++ ".size()") op
  | choice before after =>
    have h := Holds.listText ((before.map Json.Number.toDouble).map .number)
      ((after.map Json.Number.toDouble).map .number)
    simp only [Test.text, choiceText, List.map_append, List.map_cons]
    exact h.append_left _
  | @distance _ target ht op => exact hcompare (field ++ ".distance(" ++ target.text ++ ")") op
  | latitude longitude op value =>
    have h := ((Holds.number.append_left "latlng.value(").append_right ", ").append_right
      longitude.toDouble.text
    exact hpoint (h.append_right ")") op value.toDouble
  | longitude latitude op value =>
    have h := Holds.number.append_left ("latlng.value(" ++ latitude.toDouble.text ++ ", ")
    exact hpoint (h.append_right ")") op value.toDouble
  | mapGet hk op => exact hcompare _ op
  | listGet i op => exact hcompare _ op
  | mapValues op hb ha =>
    exact ((Holds.listText _ _).append_left _).append_right ")"
  | listSet op hb ha =>
    exact ((Holds.listText _ _).append_left _).append_right ")"

end Test.Place

end Places

def Json.Number.ofInt (k : Int) (hk : k.natAbs ≤ 2 ^ 53) : Json.Number := .integer k (by omega)

theorem Test.Place.ofJson_eq {read written : Json → List Json} {test : Double → Test}
    (h : Test.Place read written test) {v : Json} {f : Field} (hf : Field.TupleForm v f)
    (n : Json.Number) :
    Condition.ofJson (.array (v :: read (.number n))) = .ok ⟨f, test n.toDouble⟩ ∧
      Condition.Canonical ⟨f, test n.toDouble⟩ := by
  obtain ⟨k, ht⟩ := h.tupleForm n
  have hc : Condition.TupleForm (.array (v :: read (.number n))) k ⟨f, test n.toDouble⟩ :=
    .tuple hf ht
  refine ⟨?_, hc.canonical⟩
  rw [Condition.ofJson_eq_ok_iff, hc.category_eq]
  exact hc

/-- The literal of an integer of size up to `2 ^ 53` is read as the double that is the integer, which
is the same literal in rule text and in tuple form. So a condition whose text has the literal at some
place is rendered and written with the literal at this place, and every number of a condition that is
read stands at such a place. -/
theorem integers_keep_digits :
    (∀ (k : Int) (hk : k.natAbs ≤ 2 ^ 53),
      (∀ depth rest, StopsRun Json.extendsNumeral rest →
        Json.readValue depth ((toString k).toList ++ rest) = .ok (.number (.ofInt k hk), rest)) ∧
      (∃ x, (Json.Number.ofInt k hk).toDouble = .finite x ∧ x.value = k ∧
        (x.negative = true ↔ k < 0) ∧ (Double.finite x).rule = .ok (toString k) ∧
        Json.ofDouble (.finite x) = .number (.ofInt k hk)) ∧
      (Json.number (.ofInt k hk)).text = toString k) ∧
    (∀ (read written : Json → List Json) (test : Double → Test) (v : Json) (f : Field),
      Test.Place read written test → Field.TupleForm v f →
      ∃ before after, ∀ (k : Int) (hk : k.natAbs ≤ 2 ^ 53), ∃ c,
        c = ⟨f, test (Json.Number.ofInt k hk).toDouble⟩ ∧
        Condition.ofJson (.array (v :: read (.number (.ofInt k hk)))) = .ok c ∧
        (∀ front back : String,
          Json.Hole Json.maxDepth front.toList back.toList (fun u => .array (v :: read u)) →
          Condition.parse (front ++ toString k ++ back) = .ok c) ∧
        c.toJson = .array (f.toJson :: written (.number (.ofInt k hk))) ∧
        (c.updateTargets = [] → c.rule = .ok (before ++ toString k ++ after))) ∧
    ∀ (v : Json) (c : Condition), Condition.ofJson v = .ok c → ∀ x ∈ c.test.numbers,
      ∃ read written test u, ∃ n : Json.Number, Test.Place read written test ∧
        Field.TupleForm u c.field ∧ v = .array (u :: read (.number n)) ∧
        c.test = test n.toDouble ∧ n.toDouble = x := by
  have hnumber (k : Int) (hk : k.natAbs ≤ 2 ^ 53) :
      ∃ x, (Json.Number.ofInt k hk).toDouble = .finite x ∧ x.value = k ∧
        (x.negative = true ↔ k < 0) ∧ (Double.finite x).rule = .ok (toString k) ∧
        Json.ofDouble (.finite x) = .number (.ofInt k hk) := by
    obtain ⟨m, hm, hq⟩ := Double.exists_ofInt_eq_of_le hk
    exact ⟨⟨decide (k < 0), m⟩, hm, Double.Finite.value_integer hq, decide_eq_true_iff,
      Double.rule_integer hk hq, Json.ofDouble_integer _ hk hq⟩
  refine ⟨?_, ?_, ?_⟩
  · intro k hk
    refine ⟨fun depth rest hr => Json.readValue_integer _ depth hr, hnumber k hk, ?_⟩
    rw [Json.text, Json.chars, Json.Number.ofInt, Json.chars_integer, String.ofList_toList]
  · intro read written test v f hp hf
    obtain ⟨before, after, htext⟩ := hp.holds_text f.text
    refine ⟨before, after, ?_⟩
    intro k hk
    obtain ⟨x, hx, -, -, hrule, hwritten⟩ := hnumber k hk
    obtain ⟨hread, hcanonical⟩ := hp.ofJson_eq hf (.ofInt k hk)
    refine ⟨_, rfl, hread, ?_, ?_, ?_⟩
    · intro front back hhole
      rw [Condition.parse, Json.load, hhole.read_integer]
      exact hread
    · rw [hp.toJson_eq, hx, hwritten]
    · intro hu
      rw [Condition.rule_eq_ok_iff, hcanonical.renderable_iff]
      refine ⟨hu, ?_⟩
      have ht := htext (.finite x)
      rw [((Double.rule_eq_ok_iff _ _).mp hrule).2] at ht
      rw [hx]
      exact ht
  · intro v c hread x hx
    have hform := (Condition.ofJson_eq_ok_iff v c).mp hread
    generalize c.category = k at hform
    cases hform with
    | bare hf => cases hx
    | tuple hf ht =>
      obtain ⟨read, written, test, n, hp, rfl, htest, hn⟩ := Test.Place.exists_of_mem ht hx
      exact ⟨read, written, test, _, n, hp, hf, rfl, htest, hn⟩

/-- The text of a list around its second item. -/
theorem Json.hole_hasAny :
    Json.Hole Json.maxDepth "[[\"field\",[\"a\"]],\"hasAny\",[\"b\", ".toList ",3]]".toList
      fun u => .array [.array [.string "field", .array [.string "a"]], .string "hasAny",
        .array [.string "b", u, .number (.ofInt 3 (by decide))]] := by
  have hnone : Json.Blank [] := List.forall_mem_nil _
  have hspace : Json.Blank [' '] := List.forall_mem_singleton.mpr rfl
  have hstring (depth : Nat) (s : String) := Json.readsAs_chars (.string s) (Nat.zero_le depth)
  have hfield := Json.readsAs_chars
    (Field.printable_toJson (.here ⟨[.literal "a"], by decide⟩)) (show _ ≤ 126 by decide)
  have hlist := Json.Hole.item (.here hspace hnone) (.cons (hstring 125 "b") .nil)
    (.cons (Json.readsAs_integer (k := 3) (by decide) 125) .nil) hnone hnone
  have htuple : Json.Hole Json.maxDepth _ _ _ :=
    .item hlist (.cons hfield (.cons (hstring 126 "hasAny") .nil)) .nil hnone hnone
  convert htuple using 1
  · decide +kernel
  · decide +kernel
  · rfl

/-- At the limit, in a list after a string and before another number. -/
theorem integers_keep_digits_limit :
    Json.readValue 0 ("-9007199254740992".toList ++ [',', '3', ']']) =
      .ok (.number (.ofInt (-9007199254740992) (by decide)), [',', '3', ']']) ∧
    ∃ c : Condition, c = ⟨.here ⟨[.literal "a"], by decide⟩, .listSet .hasAny
        [.string "b", .number (.ofInt (-9007199254740992)), .number (.ofInt 3)]⟩ ∧
      Condition.parse
        ("[[\"field\",[\"a\"]],\"hasAny\",[\"b\", " ++ "-9007199254740992" ++ ",3]]") = .ok c ∧
      (∃ before after, c.rule = .ok (before ++ "-9007199254740992" ++ after)) ∧
      ∃ read written test, ∃ n : Json.Number, Test.Place read written test ∧
        c.test = test n.toDouble ∧ n.toDouble = .ofInt 3 := by
  have hf : Field.TupleForm _ (.here ⟨[.literal "a"], by decide⟩) :=
    .here (.list (.cons (.literal "a") .nil))
  have hp : Test.Place _ _ fun x => .listSet .hasAny [.string "b", .number x, .number (.ofInt 3)] :=
    @Test.Place.listSet .hasAny _ _ [.string "b"] [.number (.ofInt 3)] (.cons (.string "b") .nil)
      (.cons (.number (.integer 3 (by decide))) .nil)
  obtain ⟨before, after, h⟩ := integers_keep_digits.2.1 _ _ _ _ _ hp hf
  have htext : toString (-9007199254740992 : Int) = "-9007199254740992" := by decide
  have hread := (integers_keep_digits.1 (-9007199254740992) (by decide)).1 0 [',', '3', ']'] rfl
  obtain ⟨c, rfl, hc, hparse, -, hrule⟩ := h (-9007199254740992) (by decide)
  obtain ⟨read, written, test, -, n, hplace, -, -, htest, hn⟩ :=
    integers_keep_digits.2.2 _ _ hc (.ofInt 3) (.tail _ (.head _))
  have hauthored := hparse _ _ Json.hole_hasAny
  rw [htext] at hread hrule hauthored
  exact ⟨hread, _, rfl, hauthored, ⟨before, after, hrule rfl⟩, read, written, test, n, hplace,
    htest, hn⟩

end AccessRules
