import AccessRules.Proofs.Equality
import AccessRules.Proofs.Outcome
import AccessRules.Proofs.Token
import AccessRules.Tuple.Reader
import AccessRules.Tuple.Writer

/-! Reading a condition back from its own tuple form. -/
namespace AccessRules

instance : Token.Exact Verb where
  ofString?_token verb := by
    cases verb with
    | set op => cases op <;> rfl
    | compare op => cases op <;> rfl
    | _ => rfl

@[simp] theorem Json.expectToken_ofToken {α : Type} [Token α] [Token.Exact α] (what : Mismatch)
    (a : α) : (Json.ofToken a).expectToken what = .ok a := by
  simp [Json.ofToken, Json.expectToken, Json.expectString, Token.Exact.ofString?_token]

@[simp] theorem Segment.ofJson_toJson (s : Segment) : Segment.ofJson s.toJson = .ok s := by
  cases s <;> rfl

@[simp] theorem Path.ofJson_toJson (p : Path) : Path.ofJson p.toJson = .ok p := by
  obtain ⟨segments, hp⟩ := p
  have hs : (segments.map Segment.toJson).mapM Segment.ofJson = .ok segments := by
    rw [List.mapM_map]
    exact (Outcome.mapM_ok Segment.ofJson_toJson segments).trans (by rw [List.map_id'])
  simp only [Path.toJson, Path.ofJson, Json.expectArray, Outcome.ok_bind, hs]
  cases segments with
  | nil => exact (hp rfl).elim
  | cons s ss => rfl

@[simp] theorem Field.ofJson_toJson (f : Field) : Field.ofJson f.toJson = .ok f := by
  cases f <;> simp [Field.toJson, Field.ofJson, Path.ofLocal]

@[simp] theorem Field.isField_toJson (f : Field) : f.toJson.isField = true := by
  cases f <;> simp [Field.toJson, Json.isField]

/-- A number is read from any form that a double is written in, unless it is written as null. -/
theorem Json.ofDouble_cases (x : Double) :
    (∃ n : Json.Number, Json.ofDouble x = .number n ∧ x.IsFinite ∧ n.toDouble = x.settled) ∨
      (Json.ofDouble x = .null ∧ ¬ x.IsFinite) := by
  cases x with
  | nan => exact Or.inr ⟨rfl, id⟩
  | infinite s => exact Or.inr ⟨rfl, id⟩
  | finite x => exact Or.inl ⟨_, rfl, trivial, Json.Number.toDouble_ofFinite x⟩

theorem Json.expectNumber_ofDouble_iff (x y : Double) :
    (Json.ofDouble x).expectNumber = .ok y ↔ x.IsFinite ∧ x.settled = y := by
  obtain ⟨n, hn, hx, hs⟩ | ⟨hn, hx⟩ := Json.ofDouble_cases x
  · simp [Json.expectNumber, hn, hx, hs]
  · simp [Json.expectNumber, hn, hx]

theorem Literal.ofJson_toJson_iff (l m : Literal) :
    Literal.ofJson l.toJson = .ok m ↔
      (∀ x ∈ l.numbers, x.IsFinite) ∧ l.mapNumbers .settled = m := by
  cases l with
  | string s => simp [Literal.toJson, Literal.ofJson, numbers, mapNumbers]
  | number x =>
    obtain ⟨n, hn, hx, hs⟩ | ⟨hn, hx⟩ := Json.ofDouble_cases x
    · simp [Literal.toJson, Literal.ofJson, numbers, mapNumbers, hn, hx, hs]
    · simp [Literal.toJson, Literal.ofJson, numbers, hn, hx]

theorem Scalar.ofJson_toJson_iff (s t : Scalar) :
    Scalar.ofJson s.toJson = .ok t ↔
      (∀ x ∈ s.numbers, x.IsFinite) ∧ s.mapNumbers .settled = t := by
  cases s with
  | string s => simp [Scalar.toJson, Scalar.ofJson, numbers, mapNumbers]
  | number x =>
    obtain ⟨n, hn, hx, hs⟩ | ⟨hn, hx⟩ := Json.ofDouble_cases x
    · simp [Scalar.toJson, Scalar.ofJson, numbers, mapNumbers, hn, hx, hs]
    · simp [Scalar.toJson, Scalar.ofJson, Json.param?, numbers, hn, hx]
  | param name =>
    simp [Scalar.toJson, Scalar.ofJson, Json.ofStrings, Json.param?, numbers, mapNumbers]

theorem Target.ofJson_toJson_iff (s t : Target) :
    Target.ofJson s.toJson = .ok t ↔
      (∀ x ∈ s.numbers, x.IsFinite) ∧ s.mapNumbers .settled = t := by
  cases s with
  | point x y =>
    simp [Target.toJson, Target.ofJson, Outcome.bind_eq_ok_iff, Json.expectNumber_ofDouble_iff,
      numbers, mapNumbers, and_assoc]
  | field f =>
    have hf : Target.ofJson f.toJson = Target.ofJson.ofField f.toJson := by
      cases f <;> rfl
    simp [Target.toJson, hf, Target.ofJson.ofField, numbers, mapNumbers]

theorem Literal.listOfJson_iff (items : List Literal) (ms : List Literal) :
    Literal.listOfJson (.array (items.map Literal.toJson)) = .ok ms ↔
      (∀ x ∈ items.flatMap Literal.numbers, x.IsFinite) ∧
        items.map (Literal.mapNumbers .settled) = ms := by
  have h := Outcome.mapM_eq_ok_iff Literal.ofJson_toJson_iff items ms
  simp only [Literal.listOfJson, Json.expectArray, Outcome.ok_bind, List.mapM_map]
  refine h.trans ?_
  simp only [List.forall_mem_flatMap]

@[simp] theorem Json.expectStrings_ofStrings (items : List String) :
    (Json.ofStrings items).expectStrings = .ok items := by
  simp only [Json.ofStrings, Json.expectStrings, Json.expectArray, Outcome.ok_bind, List.mapM_map]
  exact (Outcome.mapM_ok (fun _ => rfl) items).trans (by rw [List.map_id'])

@[simp] theorem Json.Number.index?_toNat (i : UInt64)
    (h : -9223372036854775808 ≤ (i.toNat : Int) ∧ (i.toNat : Int) < 18446744073709551616) :
    (Json.Number.integer i.toNat h).index? = some i := by
  simp [Json.Number.index?]

namespace Test

/-- The test in the category that its tuple form is read in. -/
def inferred : Test → Test
  | .mapSize op x | .listSize op x => .stringSize op x
  | .inStrings [] => .inNumbers []
  | .compareString op (.number x) => .compareNumber op x
  | t => t

@[simp] theorem numbers_inferred (t : Test) : t.inferred.numbers = t.numbers := by
  unfold inferred
  split <;> rfl

def OrdersText : Test → Prop
  | .compareString op value => op.isEquality = false ∧ value.IsText
  | _ => False

def Readable (t : Test) : Prop := (∀ x ∈ t.numbers, x.IsFinite) ∧ ¬ t.OrdersText

theorem ofChoices_numbers_iff (xs : List Double) (u : Test) :
    ofChoices (.array (xs.map .ofDouble)) = .ok u ↔
      (∀ x ∈ xs, x.IsFinite) ∧ inNumbers (xs.map .settled) = u := by
  have hn (x : Double) : (Json.ofDouble x).isNumber = true ↔ x.IsFinite := by
    obtain ⟨n, hn, hx, -⟩ | ⟨hn, hx⟩ := Json.ofDouble_cases x <;> simp [hn, hx, Json.isNumber]
  have hs (x : Double) : (Json.ofDouble x).isString = false := by
    obtain ⟨n, hn, -⟩ | ⟨hn, -⟩ := Json.ofDouble_cases x <;> rw [hn] <;> rfl
  simp only [ofChoices, Json.expectArray, Outcome.ok_bind]
  by_cases hf : ∀ x ∈ xs, x.IsFinite
  · have ha : (xs.map Json.ofDouble).all Json.isNumber = true := by simpa [hn] using hf
    have hm := Outcome.mapM_eq_ok_iff Json.expectNumber_ofDouble_iff xs
    rw [if_pos ha, Outcome.bind_eq_ok_iff, List.mapM_map]
    constructor
    · rintro ⟨ys, hys, hu⟩
      obtain ⟨-, rfl⟩ := (hm ys).mp hys
      exact ⟨hf, Except.ok.inj hu⟩
    · rintro ⟨-, rfl⟩
      exact ⟨_, (hm _).mpr ⟨hf, rfl⟩, rfl⟩
  · -- A number that is not finite is written as null, which is neither a number nor a string.
    obtain ⟨x, hx, hnf⟩ : ∃ x ∈ xs, ¬ x.IsFinite := by simpa using hf
    have ha : ¬ (xs.map Json.ofDouble).all Json.isNumber = true := by simpa [hn] using hf
    have hb : ¬ (xs.map Json.ofDouble).all Json.isString = true := by
      simpa [hs] using ⟨x, hx⟩
    simp [ha, hb, hf]

theorem ofChoices_strings (items : List String) :
    ofChoices (.ofStrings items) = .ok (inferred (.inStrings items)) := by
  cases items with
  | nil => rfl
  | cons s items =>
    have hs : ((s :: items).map Json.string).all Json.isString = true := by
      simp [Json.isString]
    have he := Json.expectStrings_ofStrings (s :: items)
    unfold Json.ofStrings at he ⊢
    simp only [ofChoices, Json.expectArray, Outcome.ok_bind, hs, he]
    rfl

theorem ofComparison_iff (op : Comparison) (value : Scalar) (u : Test) :
    ofComparison op value.toJson = .ok u ↔
      (compareString op value).Readable ∧
        (compareString op value).inferred.mapNumbers .settled = u := by
  unfold ofComparison
  rw [Outcome.bind_eq_ok_iff]
  simp only [Scalar.ofJson_toJson_iff]
  cases value with
  | number x =>
    simp only [and_assoc, exists_and_left, exists_eq_left']
    simp [Readable, OrdersText, Scalar.IsText, inferred, numbers, Scalar.numbers, mapNumbers,
      Scalar.mapNumbers]
  | string s | param s =>
    cases op <;> simp [Readable, OrdersText, Scalar.IsText, inferred, numbers, Scalar.numbers,
      mapNumbers, Scalar.mapNumbers, Comparison.isEquality]

theorem ofScalar_iff (value : Scalar) (test : Scalar → Test) (u : Test) :
    (Scalar.ofJson value.toJson >>= fun v => .ok (test v)) = .ok u ↔
      (∀ x ∈ value.numbers, x.IsFinite) ∧ test (value.mapNumbers .settled) = u := by
  rw [Outcome.bind_eq_ok_iff]
  simp [Scalar.ofJson_toJson_iff, and_assoc]

theorem ofGet_key_iff (key : Segment) (op : Comparison) (value : Scalar) (u : Test) :
    ofGet key.toJson (.ofToken op) value.toJson = .ok u ↔
      (∀ x ∈ value.numbers, x.IsFinite) ∧ mapGet key op (value.mapNumbers .settled) = u := by
  have hk : ofGet key.toJson (.ofToken op) value.toJson =
      Scalar.ofJson value.toJson >>= fun v => .ok (mapGet key op v) := by
    cases key <;> simp [ofGet, Segment.toJson, Segment.ofJson, Json.ofStrings, Json.param?]
  rw [hk, ofScalar_iff]

theorem ofGet_index_iff (i : UInt64) (op : Comparison) (value : Scalar) (u : Test) :
    ofGet (.ofIndex i) (.ofToken op) value.toJson = .ok u ↔
      (∀ x ∈ value.numbers, x.IsFinite) ∧ listGet i op (value.mapNumbers .settled) = u := by
  have hk : ofGet (.ofIndex i) (.ofToken op) value.toJson =
      Scalar.ofJson value.toJson >>= fun v => .ok (listGet i op v) := by
    simp [ofGet, Json.ofIndex]
  rw [hk, ofScalar_iff]

theorem tail_eq_cons {t : Test} (ht : t ≠ .isTrue) :
    ∃ token operands, t.tail = .string token :: operands := by
  cases t with
  | isTrue => exact (ht rfl).elim
  | _ => exact ⟨_, _, rfl⟩

theorem ofTuple_tail_iff {t : Test} {token : String} {operands : List Json}
    (ht : t.tail = .string token :: operands) (whole : Json) (u : Test) :
    ofTuple whole token operands = .ok u ↔ t.Readable ∧ t.inferred.mapNumbers .settled = u := by
  cases t with
  | isTrue => cases ht
  | compareNumber op x =>
    cases ht
    have h := ofComparison_iff op (.number x) u
    simpa [ofTuple, Token.Exact.ofString?_token, Readable, OrdersText, Scalar.IsText,
      Scalar.toJson, inferred, numbers, Scalar.numbers, mapNumbers] using h
  | inStrings values =>
    cases ht
    cases values <;> simp [ofTuple, Token.Exact.ofString?_token, ofChoices_strings, Readable,
      OrdersText, inferred, numbers, mapNumbers]
  | compareString op value =>
    cases ht
    simpa [ofTuple, Token.Exact.ofString?_token] using ofComparison_iff op value u
  | distance target op x =>
    cases ht
    simp [ofTuple, Token.Exact.ofString?_token, Outcome.bind_eq_ok_iff, Target.ofJson_toJson_iff,
      Json.expectNumber_ofDouble_iff, Readable, OrdersText, inferred, numbers, mapNumbers, or_imp,
      forall_and, and_assoc]
  | _ =>
    cases ht
    simp [ofTuple, Token.Exact.ofString?_token, Outcome.bind_eq_ok_iff,
      Json.expectNumber_ofDouble_iff, Literal.listOfJson_iff, Readable, OrdersText, inferred,
      numbers, mapNumbers, ofChoices_numbers_iff, ofGet_key_iff, ofGet_index_iff, and_assoc]

end Test

namespace Condition

/-- The condition that the tuple form is read as. -/
def reread (c : Condition) : Condition := ⟨c.field, c.test.inferred.mapNumbers .settled⟩

theorem ofJson_toJson_iff (c d : Condition) :
    Condition.ofJson c.toJson = .ok d ↔ c.test.Readable ∧ c.reread = d := by
  obtain ⟨f, t⟩ := c
  obtain ⟨g, u⟩ := d
  by_cases ht : t = .isTrue
  · subst ht
    simp [Condition.toJson, Condition.ofJson, Test.Readable, Test.OrdersText, Test.numbers,
      reread, Test.inferred, Test.mapNumbers]
  · obtain ⟨token, operands, htail⟩ := Test.tail_eq_cons ht
    have hw : Condition.toJson ⟨f, t⟩ = .array (f.toJson :: .string token :: operands) := by
      cases t <;> simp_all [Condition.toJson]
    have hf : Json.isField (.array (f.toJson :: .string token :: operands)) = false := by
      cases f <;> rfl
    rw [hw]
    simp [Condition.ofJson, hf, Json.expectString, Outcome.bind_eq_ok_iff,
      Test.ofTuple_tail_iff htail, reread, and_assoc]

end Condition

end AccessRules
