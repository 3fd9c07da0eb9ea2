import AccessRules.Proofs.Tuple.Acceptance
import AccessRules.Proofs.Tuple.Canonical
import AccessRules.Proofs.Tuple.ThroughText

/-! Reading a condition back through its text. Its numbers go through decimals, and nothing else can
change. -/
namespace AccessRules

section Numbers

variable (f g : Double → Double)

theorem Literal.mapNumbers_eq_iff (l : Literal) :
    l.mapNumbers f = l.mapNumbers g ↔ ∀ x ∈ l.numbers, f x = g x := by
  cases l <;> simp [mapNumbers, numbers]

theorem Scalar.mapNumbers_eq_iff (s : Scalar) :
    s.mapNumbers f = s.mapNumbers g ↔ ∀ x ∈ s.numbers, f x = g x := by
  cases s <;> simp [mapNumbers, numbers]

theorem Target.mapNumbers_eq_iff (t : Target) :
    t.mapNumbers f = t.mapNumbers g ↔ ∀ x ∈ t.numbers, f x = g x := by
  cases t <;> simp [mapNumbers, numbers]

theorem Test.mapNumbers_eq_iff (t : Test) :
    t.mapNumbers f = t.mapNumbers g ↔ ∀ x ∈ t.numbers, f x = g x := by
  cases t with
  | distance target op x =>
    simp [mapNumbers, numbers, Target.mapNumbers_eq_iff, or_imp, forall_and]
  | mapValues op items | listSet op items =>
    simp only [mapNumbers, numbers, mapValues.injEq, listSet.injEq, true_and, List.map_inj_left,
      Literal.mapNumbers_eq_iff, List.forall_mem_flatMap]
  | _ => simp [mapNumbers, numbers, Scalar.mapNumbers_eq_iff]

theorem Literal.mapNumbers_mapNumbers (l : Literal) :
    (l.mapNumbers f).mapNumbers g = l.mapNumbers fun x => g (f x) := by
  cases l <;> rfl

theorem Scalar.mapNumbers_mapNumbers (s : Scalar) :
    (s.mapNumbers f).mapNumbers g = s.mapNumbers fun x => g (f x) := by
  cases s <;> rfl

theorem Target.mapNumbers_mapNumbers (t : Target) :
    (t.mapNumbers f).mapNumbers g = t.mapNumbers fun x => g (f x) := by
  cases t <;> rfl

theorem Test.mapNumbers_mapNumbers (t : Test) :
    (t.mapNumbers f).mapNumbers g = t.mapNumbers fun x => g (f x) := by
  cases t <;> simp [mapNumbers, Literal.mapNumbers_mapNumbers, Scalar.mapNumbers_mapNumbers,
    Target.mapNumbers_mapNumbers]

end Numbers

namespace Double

/-- The double that is read from the text of a written double. -/
def reparsed : Double → Double
  | .finite x => (Json.Number.ofFinite x).reparsed.toDouble
  | x => x

theorem isFinite_reparsed {x : Double} (hx : x.IsFinite) : x.reparsed.IsFinite := by
  cases x with
  | nan => exact hx
  | infinite s => exact hx
  | finite x => exact Json.Number.isFinite_toDouble _

/-- The text of the double is that of an integer, or has digits of at most 53 bits and a power of ten
up to 22: then the digits and the power of ten are doubles themselves. -/
def Finite.HasShortText (x : Finite) : Prop :=
  x.magnitude.Integral ∧ x.magnitude.floor ≤ 9223372036854775808 ∨
    x.numeral.decimal.digits ≤ 9007199254740992 ∧ x.numeral.decimal.exponent.natAbs ≤ 22

instance (x : Finite) : Decidable x.HasShortText := inferInstanceAs (Decidable (_ ∨ _))

theorem Finite.HasShortText.reparsed_ofFinite {x : Finite} (hx : x.HasShortText) :
    (Json.Number.ofFinite x).reparsed = Json.Number.ofFinite x := by
  unfold Json.Number.ofFinite
  split
  next => split <;> rfl
  next h =>
    obtain ⟨hdigits, hexp⟩ := hx.resolve_left h
    rw [Json.Number.reparsed, x.reparsed_of_short hdigits hexp]

theorem reparsed_beq {x : Finite} (hx : x.HasShortText) :
    ((finite x).reparsed == finite x) = true := by
  have ht : (finite x).reparsed = (finite x).settled := by
    rw [reparsed, hx.reparsed_ofFinite, Json.Number.toDouble_ofFinite]
    rfl
  rw [ht]
  exact settled_beq trivial

end Double

section Sorted

@[simp] theorem Json.sorted_ofDouble (x : Double) : (Json.ofDouble x).Sorted := by
  cases x with
  | nan => exact .null
  | infinite s => exact .null
  | finite x => exact .number _

theorem Literal.sorted_toJson (l : Literal) : l.toJson.Sorted := by
  cases l <;> simp [toJson]

theorem Scalar.sorted_toJson (s : Scalar) : s.toJson.Sorted := by
  cases s <;> simp [toJson, Json.ofStrings]

theorem Target.sorted_toJson (t : Target) : t.toJson.Sorted := by
  cases t with
  | point x y => simp [toJson]
  | field f => exact f.printable_toJson.sorted

theorem Test.sorted_tail (t : Test) : ∀ v ∈ t.tail, v.Sorted := by
  cases t with
  | mapGet key op value =>
    simp [tail, Json.ofToken, key.printable_toJson.sorted, value.sorted_toJson]
  | listGet i op value => simp [tail, Json.ofToken, Json.ofIndex, value.sorted_toJson]
  | compareString op value => simp [tail, Json.ofToken, value.sorted_toJson]
  | distance target op x => simp [tail, Json.ofToken, target.sorted_toJson]
  | mapValues op items | listSet op items => simp [tail, Json.ofToken, Literal.sorted_toJson]
  | _ => simp [tail, Json.ofToken, Json.ofStrings]

theorem Condition.sorted_toJson (c : Condition) : c.toJson.Sorted := by
  obtain ⟨f, t⟩ := c
  have hf := f.printable_toJson.sorted
  have ht := t.sorted_tail
  cases t with
  | isTrue => exact hf
  | _ => exact .array (List.forall_mem_cons.mpr ⟨hf, ht⟩)

end Sorted

section Form

@[simp] theorem Json.reparsed_array (items : List Json) :
    (Json.array items).reparsed = .array (items.map reparsed) := by
  rw [reparsed, reparsedItems_eq_map]

@[simp] theorem Json.reparsed_string (s : String) : (Json.string s).reparsed = .string s :=
  rfl

@[simp] theorem Json.reparsed_ofToken {α : Type} [Token α] (a : α) :
    (Json.ofToken a).reparsed = .ofToken a :=
  (printable_ofToken a).reparsed_eq

/-- A finite number is read as a number. -/
theorem Json.exists_reparsed_ofDouble {x : Double} (hx : x.IsFinite) :
    ∃ n : Number, (ofDouble x).reparsed = .number n ∧ n.toDouble = x.reparsed := by
  cases x with
  | nan => exact hx.elim
  | infinite s => exact hx.elim
  | finite x => exact ⟨_, rfl, rfl⟩

theorem Json.exists_reparsed_doubles {xs : List Double} (h : ∀ x ∈ xs, x.IsFinite) :
    ∃ ns : List Number, (xs.map ofDouble).map reparsed = ns.map .number ∧
      ns.map Number.toDouble = xs.map Double.reparsed := by
  induction xs with
  | nil => exact ⟨[], rfl, rfl⟩
  | cons x xs ih =>
    obtain ⟨hx, hxs⟩ := List.forall_mem_cons.mp h
    obtain ⟨n, hn, hd⟩ := exists_reparsed_ofDouble hx
    obtain ⟨ns, hns, hds⟩ := ih hxs
    refine ⟨n :: ns, ?_, ?_⟩
    · simp only [List.map_cons, hn, hns]
    · simp only [List.map_cons, hd, hds]

theorem Literal.tupleForm_reparsed {l : Literal} (h : ∀ x ∈ l.numbers, x.IsFinite) :
    Literal.TupleForm l.toJson.reparsed (l.mapNumbers .reparsed) := by
  cases l with
  | string s => exact .string s
  | number x =>
    obtain ⟨n, hn, hd⟩ := Json.exists_reparsed_ofDouble (h x List.mem_cons_self)
    rw [toJson, hn, mapNumbers, ← hd]
    exact .number n

theorem Literal.tupleForms_reparsed {items : List Literal}
    (h : ∀ x ∈ items.flatMap numbers, x.IsFinite) :
    List.Forall₂ Literal.TupleForm ((items.map toJson).map Json.reparsed)
      (items.map (mapNumbers .reparsed)) := by
  rw [List.forall_mem_flatMap] at h
  rw [List.map_map, List.forall₂_map_left_iff, List.forall₂_map_right_iff, List.forall₂_same]
  intro l hl
  exact tupleForm_reparsed (h l hl)

theorem Scalar.tupleForm_reparsed {s : Scalar} (h : ∀ x ∈ s.numbers, x.IsFinite) :
    Scalar.TupleForm s.toJson.reparsed (s.mapNumbers .reparsed) := by
  cases s with
  | string s => exact .string s
  | number x =>
    obtain ⟨n, hn, hd⟩ := Json.exists_reparsed_ofDouble (h x List.mem_cons_self)
    rw [toJson, hn, mapNumbers, ← hd]
    exact .number n
  | param name =>
    rw [toJson, (Json.printable_ofStrings _).reparsed_eq]
    exact .param name

theorem Field.tupleForm_reparsed (f : Field) : Field.TupleForm f.toJson.reparsed f := by
  rw [f.printable_toJson.reparsed_eq]
  exact (Field.ofJson_eq_ok_iff _ _).mp f.ofJson_toJson

theorem Target.tupleForm_reparsed {t : Target} (h : ∀ x ∈ t.numbers, x.IsFinite) :
    Target.TupleForm t.toJson.reparsed (t.mapNumbers .reparsed) := by
  cases t with
  | point x y =>
    obtain ⟨m, hm, hx⟩ := Json.exists_reparsed_ofDouble (h x List.mem_cons_self)
    obtain ⟨n, hn, hy⟩ := Json.exists_reparsed_ofDouble (h y (by simp [numbers]))
    simp only [toJson, Json.reparsed_array, List.map_cons, List.map_nil, Json.reparsed_string, hm,
      hn, mapNumbers, ← hx, ← hy]
    exact .point m n
  | field f => exact .field f.tupleForm_reparsed

/-- The text of a test is read as the same test, with its numbers reparsed. -/
theorem Test.tupleForm_reparsed {t : Test} (hk : t.KeepsCategory)
    (hf : ∀ x ∈ t.numbers, x.IsFinite) (ht : t ≠ .isTrue) :
    Test.TupleForm (t.tail.map Json.reparsed) t.category (t.mapNumbers .reparsed) := by
  cases t with
  | isTrue => exact (ht rfl).elim
  | within unit x =>
    obtain ⟨n, hn, hd⟩ := Json.exists_reparsed_ofDouble (hf x List.mem_cons_self)
    simp only [tail, List.map_cons, List.map_nil, Json.reparsed_ofToken, hn, mapNumbers, ← hd]
    exact .within unit n
  | compareNumber op x =>
    obtain ⟨n, hn, hd⟩ := Json.exists_reparsed_ofDouble (hf x List.mem_cons_self)
    simp only [tail, List.map_cons, List.map_nil, Json.reparsed_ofToken, hn, mapNumbers, ← hd]
    exact .compareNumber op n
  | stringSize op x =>
    obtain ⟨n, hn, hd⟩ := Json.exists_reparsed_ofDouble (hf x List.mem_cons_self)
    simp only [tail, List.map_cons, List.map_nil, Json.reparsed_ofToken, hn, mapNumbers, ← hd]
    exact .stringSize op n
  | inNumbers xs =>
    have hxs : ∀ x ∈ xs, x.IsFinite := hf
    obtain ⟨ns, hns, hds⟩ := Json.exists_reparsed_doubles hxs
    simp only [tail, List.map_cons, List.map_nil, Json.reparsed_ofToken, Json.reparsed_array, hns,
      mapNumbers, ← hds]
    exact .inNumbers ns
  | isInteger => exact .isInteger
  | isFloat => exact .isFloat
  | compareString op value =>
    have hv := Scalar.tupleForm_reparsed hf
    have ho : op = .eq ∨ op = .ne := by
      cases op <;> simp_all [KeepsCategory, Comparison.isEquality]
    have htext : (value.mapNumbers .reparsed).IsText := by
      cases value <;> simp_all [KeepsCategory, Scalar.IsText, Scalar.mapNumbers]
    exact .compareString op ho hv htext
  | inStrings values =>
    cases values with
    | nil => exact (hk rfl).elim
    | cons s values =>
      simp only [tail, List.map_cons, List.map_nil, Json.reparsed_ofToken,
        (Json.printable_ofStrings _).reparsed_eq]
      exact .inStrings s values
  | distance target op x =>
    obtain ⟨htarget, hx⟩ := List.forall_mem_append.mp hf
    obtain ⟨n, hn, hd⟩ := Json.exists_reparsed_ofDouble (hx x List.mem_cons_self)
    simp only [tail, List.map_cons, List.map_nil, Json.reparsed_ofToken, hn, mapNumbers, ← hd]
    exact .distance (Target.tupleForm_reparsed htarget) op n
  | mapGet key op value =>
    have hkey := (Segment.ofJson_eq_ok_iff _ _).mp key.ofJson_toJson
    simp only [tail, List.map_cons, List.map_nil, Json.reparsed_ofToken,
      key.printable_toJson.reparsed_eq]
    exact .mapGet hkey op (Scalar.tupleForm_reparsed hf)
  | mapKeys op keys =>
    simp only [tail, List.map_cons, List.map_nil, Json.reparsed_ofToken,
      (Json.printable_ofStrings _).reparsed_eq]
    exact .mapKeys op keys
  | mapValues op items =>
    simp only [tail, List.map_cons, List.map_nil, Json.reparsed_ofToken, Json.reparsed_array]
    exact .mapValues op (Literal.tupleForms_reparsed hf)
  | listGet i op value =>
    simp only [tail, List.map_cons, List.map_nil, Json.reparsed_ofToken,
      (Json.printable_ofIndex i).reparsed_eq]
    exact .listGet i op (Scalar.tupleForm_reparsed hf)
  | listSet op items =>
    simp only [tail, List.map_cons, List.map_nil, Json.reparsed_ofToken, Json.reparsed_array]
    exact .listSet op (Literal.tupleForms_reparsed hf)
  | mapSize op x => exact hk.elim
  | listSize op x => exact hk.elim

theorem Condition.tupleForm_reparsed {c : Condition} (hc : c.Canonical) :
    Condition.TupleForm c.toJson.reparsed c.category
      ⟨c.field, c.test.mapNumbers .reparsed⟩ := by
  obtain ⟨f, t⟩ := c
  have hf := f.tupleForm_reparsed
  have ht := fun hne => Test.tupleForm_reparsed hc.2 hc.1 hne
  cases t with
  | isTrue => exact .bare hf
  | _ =>
    simp only [toJson, Json.reparsed_array, List.map_cons]
    exact .tuple hf (ht (by simp))

end Form

namespace Condition

variable {c : Condition}

theorem readFirst_text (c : Condition) :
    Json.readFirst c.toJson.text = .ok (c.toJson.reparsed, []) := by
  have hn := c.nesting_toJson.2
  apply Json.readFirst_text c.sorted_toJson
  unfold Json.maxDepth
  omega

/-- The text of a canonical condition is accepted; only the numbers in it can change. -/
theorem parse_text_of_canonical (hc : c.Canonical) :
    Condition.parse c.toJson.text = .ok ⟨c.field, c.test.mapNumbers .reparsed⟩ ∧
      decode Condition.ofJson c.toJson.text = .ok ⟨c.field, c.test.mapNumbers .reparsed⟩ := by
  have hform := tupleForm_reparsed hc
  have hread := (Condition.ofJson_eq_ok_iff _ _).mpr (hform.category_eq ▸ hform)
  constructor
  · rw [Condition.parse, Json.load, Json.read, readFirst_text]
    exact hread
  · rw [decode, readFirst_text]
    simp only [Except.mapError, Outcome.ok_bind, hread]
    rfl

theorem beq_reparsed_iff (hc : c.Canonical) :
    ((⟨c.field, c.test.mapNumbers .reparsed⟩ : Condition) == c) = true ↔
      ∀ x ∈ c.test.numbers, (x.reparsed == x) = true := by
  have hnan : ∀ x ∈ c.test.numbers, x.reparsed ≠ .nan := by
    intro x hx hn
    have hfin := Double.isFinite_reparsed (hc.1 x hx)
    rw [hn] at hfin
    exact hfin
  rw [beq_iff]
  simp only [Test.numbers_mapNumbers, Test.mapNumbers_mapNumbers, Test.mapNumbers_eq_iff,
    List.forall_mem_map, Double.beq_iff, true_and]
  constructor
  · intro h x hx
    exact ⟨h.1 x hx, h.2 x hx⟩
  · intro h
    exact ⟨hnan, fun x hx => (h x hx).2⟩

theorem canonical_of_reread {d : Condition} (hd : Condition.ofJson c.toJson = .ok d)
    (he : (d == c) = true) : c.Canonical := by
  obtain ⟨hr, rfl⟩ := (ofJson_toJson_iff c d).mp hd
  exact (reread_beq_iff hr).mp he

theorem exists_reread_of_canonical (hc : c.Canonical) :
    ∃ d, Condition.ofJson c.toJson = .ok d ∧ (d == c) = true :=
  ⟨c.reread, (ofJson_toJson_iff c _).mpr ⟨hc.readable, rfl⟩, (reread_beq_iff hc.readable).mpr hc⟩

/-- Through its text, a condition that is read back from its tuple form is read as itself with its
numbers reparsed. So the text is always accepted, and it gives the same condition exactly if each
number survives its own decimal, as every number with a short text does. -/
theorem parse_text_outcome (c : Condition)
    (hc : ∃ d, Condition.ofJson c.toJson = .ok d ∧ (d == c) = true) :
    ∃ d, Condition.parse c.toJson.text = .ok d ∧
      decode Condition.ofJson c.toJson.text = .ok d ∧
      d = ⟨c.field, c.test.mapNumbers Double.reparsed⟩ ∧
      ((d == c) = true ↔ ∀ x ∈ c.test.numbers, (x.reparsed == x) = true) ∧
      ((∀ x, .finite x ∈ c.test.numbers → x.HasShortText) → (d == c) = true) := by
  obtain ⟨d, hd, he⟩ := hc
  have hcan := canonical_of_reread hd he
  obtain ⟨hparse, hdecode⟩ := parse_text_of_canonical hcan
  have hiff := beq_reparsed_iff hcan
  refine ⟨_, hparse, hdecode, rfl, hiff, ?_⟩
  intro hshort
  rw [hiff]
  intro x hx
  have hfin := hcan.1 x hx
  cases x with
  | nan => exact hfin.elim
  | infinite s => exact hfin.elim
  | finite x => exact Double.reparsed_beq (hshort x hx)

/-- The field `a` is compared with a number. -/
def comparing (x : Double.Finite) : Condition :=
  ⟨.here ⟨[.literal "a"], by decide⟩, .compareNumber .eq (.finite x)⟩

theorem canonical_comparing (x : Double.Finite) : (comparing x).Canonical :=
  ⟨by simp [comparing, Test.numbers, Double.IsFinite], trivial⟩

def minusHalf : Double.Finite := ⟨true, Nat.pow 2 1073, by decide +kernel, by decide +kernel⟩

theorem parse_text_outcome_half :
    ∃ d, Condition.parse (comparing minusHalf).toJson.text = .ok d ∧
      (d == comparing minusHalf) = true := by
  obtain ⟨d, hd, -, -, -, hs⟩ :=
    parse_text_outcome (comparing minusHalf) (exists_reread_of_canonical (canonical_comparing _))
  refine ⟨d, hd, hs ?_⟩
  intro x hx
  obtain rfl : x = minusHalf := by simpa [comparing, Test.numbers] using hx
  decide +kernel

/-- The double nearest to `10 ^ (-23)`. -/
def tiny : Double.Finite :=
  ⟨false, Double.nearest quantaPerOne (Nat.pow 10 23), by decide +kernel, by decide +kernel⟩

theorem reparsed_tiny : ((Double.finite tiny).reparsed == .finite tiny) = false := by
  decide +kernel

/-- Its text is `1e-23`, and `10 ^ 23` is no double. -/
theorem parse_text_tiny :
    (∃ d, Condition.ofJson (comparing tiny).toJson = .ok d ∧ (d == comparing tiny) = true) ∧
      ∃ d, Condition.parse (comparing tiny).toJson.text = .ok d ∧
        (d == comparing tiny) = false := by
  have hc := canonical_comparing tiny
  refine ⟨exists_reread_of_canonical hc, _, (parse_text_of_canonical hc).1, ?_⟩
  rw [Bool.eq_false_iff, ne_eq, beq_reparsed_iff hc]
  intro h
  have ht := h (.finite tiny) List.mem_cons_self
  rw [reparsed_tiny] at ht
  cases ht

end Condition

end AccessRules
