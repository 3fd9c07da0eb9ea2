import AccessRules.Load
import AccessRules.Proofs.Json.ReadBack
import AccessRules.Proofs.Tuple.Groups

/-! Reading a group back through the text of its tuple form, and through the tuple form itself. -/
namespace AccessRules

section Nesting

namespace Json

theorem itemsNesting_le_iff (vs : List Json) (n : Nat) :
    itemsNesting vs ≤ n ↔ ∀ v ∈ vs, v.nesting ≤ n := by
  induction vs with
  | nil => simp [itemsNesting]
  | cons v vs ih => rw [itemsNesting, Nat.max_le, ih, List.forall_mem_cons]

theorem nesting_array_le {items : List Json} {n : Nat} (h : ∀ v ∈ items, v.nesting ≤ n) :
    (array items).nesting ≤ n + 1 :=
  Nat.succ_le_succ ((itemsNesting_le_iff items n).mpr h)

@[simp] theorem nesting_string (s : String) : (string s).nesting = 0 := rfl

@[simp] theorem nesting_ofToken {α : Type} [Token α] (a : α) : (ofToken a).nesting = 0 := rfl

@[simp] theorem nesting_ofIndex (i : UInt64) : (ofIndex i).nesting = 0 := rfl

@[simp] theorem nesting_ofDouble (x : Double) : (ofDouble x).nesting = 0 := by
  cases x <;> rfl

theorem nesting_ofStrings_le (items : List String) : (ofStrings items).nesting ≤ 1 := by
  apply nesting_array_le
  simp

end Json

theorem Segment.nesting_toJson_le (s : Segment) : s.toJson.nesting ≤ 1 := by
  cases s with
  | literal name => exact Nat.zero_le 1
  | param name => exact Json.nesting_ofStrings_le _

theorem Path.nesting_toJson (p : Path) : 1 ≤ p.toJson.nesting ∧ p.toJson.nesting ≤ 2 := by
  refine ⟨Nat.succ_le_succ (Nat.zero_le _), Json.nesting_array_le ?_⟩
  rw [List.forall_mem_map]
  exact fun s _ => s.nesting_toJson_le

theorem Field.nesting_toJson (f : Field) : 2 ≤ f.toJson.nesting ∧ f.toJson.nesting ≤ 4 := by
  cases f with
  | elsewhere document path =>
    have hd := document.nesting_toJson
    have hp := path.nesting_toJson
    simp only [toJson, Json.nesting, Json.itemsNesting]
    omega
  | here path | updated path =>
    have hp := path.nesting_toJson
    simp only [toJson, Json.nesting, Json.itemsNesting]
    omega

theorem Literal.nesting_toJson (l : Literal) : l.toJson.nesting = 0 := by
  cases l <;> simp [toJson]

theorem Scalar.nesting_toJson_le (s : Scalar) : s.toJson.nesting ≤ 1 := by
  cases s with
  | param name => exact Json.nesting_ofStrings_le _
  | _ => simp [toJson]

theorem Target.nesting_toJson_le (t : Target) : t.toJson.nesting ≤ 4 := by
  cases t with
  | point x y => simp [toJson, Json.nesting, Json.itemsNesting]
  | field f => exact f.nesting_toJson.2

theorem Literal.nesting_array_le (items : List Literal) :
    (Json.array (items.map toJson)).nesting ≤ 1 := by
  apply Json.nesting_array_le
  simp [nesting_toJson]

theorem Test.nesting_tail_le (t : Test) : ∀ v ∈ t.tail, v.nesting ≤ 4 := by
  have hle {n : Nat} (h : n ≤ 1) : n ≤ 4 := by omega
  cases t with
  | inNumbers xs =>
    have hx : (Json.array (xs.map .ofDouble)).nesting ≤ 1 := Json.nesting_array_le (by simp)
    simpa [tail] using hle hx
  | inStrings items | mapKeys op items =>
    simpa [tail] using hle (Json.nesting_ofStrings_le items)
  | compareString op value | listGet i op value =>
    simpa [tail] using hle value.nesting_toJson_le
  | mapGet key op value =>
    simpa [tail] using ⟨hle key.nesting_toJson_le, hle value.nesting_toJson_le⟩
  | mapValues op items | listSet op items =>
    simpa [tail] using hle (Literal.nesting_array_le items)
  | distance target op x => simpa [tail] using target.nesting_toJson_le
  | _ => simp [tail]

/-- A condition has its own list, the lists of its deepest field and its operands. -/
theorem Condition.nesting_toJson (c : Condition) :
    2 ≤ c.toJson.nesting ∧ c.toJson.nesting ≤ 5 := by
  obtain ⟨f, t⟩ := c
  obtain ⟨hf₁, hf₂⟩ := f.nesting_toJson
  have ht := (Json.itemsNesting_le_iff t.tail 4).mpr t.nesting_tail_le
  cases t with
  | isTrue => exact ⟨hf₁, Nat.le_trans hf₂ (by decide)⟩
  | _ =>
    simp only [toJson, Json.nesting, Json.itemsNesting] at ht ⊢
    omega

mutual

/-- Each level of groups adds an object and a list to the nesting of the conditions. -/
theorem Member.nesting_toJson (m : Member) :
    2 * m.depth + 2 ≤ m.toJson.nesting ∧ m.toJson.nesting ≤ 2 * m.depth + 5 := by
  match m with
  | .condition c =>
    rw [Member.depth, Member.toJson]
    exact c.nesting_toJson
  | .group connective ms =>
    have h := Members.nesting_toJsons ms
    simp only [Member.depth, Member.toJson, Json.nesting, Json.entriesNesting,
      Json.nesting_ofToken]
    omega

theorem Members.nesting_toJsons (ms : Members) :
    2 * ms.depth + 2 ≤ Json.itemsNesting ms.toJsons ∧
      Json.itemsNesting ms.toJsons ≤ 2 * ms.depth + 5 := by
  match ms with
  | .last m =>
    have hm := Member.nesting_toJson m
    simp only [Members.depth, Members.toJsons, Json.itemsNesting]
    omega
  | .cons m ms =>
    have hm := Member.nesting_toJson m
    have hms := Members.nesting_toJsons ms
    simp only [Members.depth, Members.toJsons, Json.itemsNesting]
    omega

end

end Nesting

section Printing

namespace Json

@[simp] theorem printable_ofToken {α : Type} [Token α] (a : α) : (ofToken a).Printable :=
  .string _

@[simp] theorem printable_ofStrings (items : List String) : (ofStrings items).Printable := by
  simp [ofStrings]

@[simp] theorem printable_ofIndex (i : UInt64) : (ofIndex i).Printable :=
  .number (Number.readsBack_integer _ _)

/-- Whole numbers of size up to `2 ^ 63` are printed as integers. -/
theorem printable_ofDouble {x : Double}
    (h : ∀ y, x = .finite y → y.magnitude.Integral ∧ y.magnitude.floor ≤ 9223372036854775808) :
    (ofDouble x).Printable := by
  cases x with
  | nan => exact .null
  | infinite s => exact .null
  | finite y =>
    refine .number ?_
    rw [Number.ofFinite, dif_pos (h y rfl)]
    split <;> exact Number.readsBack_integer _ _

end Json

@[simp] theorem Segment.printable_toJson (s : Segment) : s.toJson.Printable := by
  cases s <;> simp [toJson]

@[simp] theorem Path.printable_toJson (p : Path) : p.toJson.Printable := by
  simp [toJson]

@[simp] theorem Field.printable_toJson (f : Field) : f.toJson.Printable := by
  cases f <;> simp [toJson]

theorem Literal.printable_toJson {l : Literal} (h : ∀ x ∈ l.numbers, (Json.ofDouble x).Printable) :
    l.toJson.Printable := by
  cases l <;> simp_all [toJson, numbers]

theorem Literal.printable_toJson_of_mem {items : List Literal}
    (h : ∀ x ∈ items.flatMap numbers, (Json.ofDouble x).Printable) :
    ∀ l ∈ items, l.toJson.Printable := by
  intro l hl
  apply printable_toJson
  intro x hx
  exact h x (List.mem_flatMap.mpr ⟨l, hl, hx⟩)

theorem Scalar.printable_toJson {s : Scalar} (h : ∀ x ∈ s.numbers, (Json.ofDouble x).Printable) :
    s.toJson.Printable := by
  cases s <;> simp_all [toJson, numbers]

theorem Target.printable_toJson {t : Target} (h : ∀ x ∈ t.numbers, (Json.ofDouble x).Printable) :
    t.toJson.Printable := by
  cases t <;> simp_all [toJson, numbers]

theorem Test.printable_tail {t : Test} (h : ∀ x ∈ t.numbers, (Json.ofDouble x).Printable) :
    ∀ v ∈ t.tail, v.Printable := by
  cases t with
  | compareString op value | mapGet key op value | listGet i op value =>
    simpa [tail] using Scalar.printable_toJson h
  | mapValues op items | listSet op items => simpa [tail] using Literal.printable_toJson_of_mem h
  | distance target op x =>
    obtain ⟨ht, hx⟩ := List.forall_mem_append.mp h
    simpa [tail] using ⟨Target.printable_toJson ht, hx x List.mem_cons_self⟩
  | within _ x | compareNumber _ x | stringSize _ x | mapSize _ x | listSize _ x | inNumbers x =>
    simpa [tail, numbers] using h
  | _ => simp [tail]

theorem Condition.printable_toJson {c : Condition}
    (h : ∀ x ∈ c.test.numbers, (Json.ofDouble x).Printable) : c.toJson.Printable := by
  obtain ⟨f, t⟩ := c
  have ht := Test.printable_tail h
  cases t with
  | isTrue => exact f.printable_toJson
  | _ => exact .array (List.forall_mem_cons.mpr ⟨f.printable_toJson, ht⟩)

mutual

theorem Member.printable_toJson {m : Member}
    (h : ∀ c ∈ m.conditions, ∀ x ∈ c.test.numbers, (Json.ofDouble x).Printable) :
    m.toJson.Printable := by
  match m with
  | .condition c => exact Condition.printable_toJson (h c List.mem_cons_self)
  | .group connective ms =>
    have hms := Members.printable_toJsons h
    have hk : "conditions" < "operation" := by decide
    refine .object (List.pairwise_pair.mpr hk) (List.forall_mem_cons.mpr ⟨.array hms, ?_⟩)
    exact List.forall_mem_singleton.mpr (Json.printable_ofToken connective)

theorem Members.printable_toJsons {ms : Members}
    (h : ∀ c ∈ ms.conditions, ∀ x ∈ c.test.numbers, (Json.ofDouble x).Printable) :
    ∀ v ∈ ms.toJsons, v.Printable := by
  match ms with
  | .last m => exact List.forall_mem_singleton.mpr (Member.printable_toJson h)
  | .cons m ms =>
    obtain ⟨hm, hms⟩ := List.forall_mem_append.mp h
    exact List.forall_mem_cons.mpr
      ⟨Member.printable_toJson hm, Members.printable_toJsons hms⟩

end

end Printing

section Parsing

variable {g : Group} (hg : g.toJson.Printable)

include hg

theorem Group.parse_text_of_le (h : g.toJson.nesting ≤ Json.maxDepth) :
    Group.parse g.toJson.text = Group.ofJson g.toJson := by
  rw [Group.parse, Json.load, (Json.read_text hg).1 h]
  rfl

theorem Group.parse_text_of_lt (h : Json.maxDepth < g.toJson.nesting) :
    ∃ position, Group.parse g.toJson.text = .error (.notJson ⟨.tooDeep, position⟩) := by
  obtain ⟨position, he⟩ := (Json.read_text hg).2 h
  refine ⟨position, ?_⟩
  rw [Group.parse, Json.load, he]
  rfl

end Parsing

/-- Through its text, a group whose numbers are whole and of size up to `2 ^ 63` is read as through
its tuple form, unless the tuple form is nested too deeply. The depth of the group decides that, but
for groups of 62 levels. -/
theorem Group.parse_text (g : Group)
    (hg : ∀ c ∈ g.members.conditions, ∀ x, .finite x ∈ c.test.numbers →
      x.magnitude.Integral ∧ x.magnitude.floor ≤ 9223372036854775808) :
    (g.toJson.nesting ≤ 127 → Group.parse g.toJson.text = Group.ofJson g.toJson) ∧
    (128 ≤ g.toJson.nesting →
      ∃ e error, Group.parse g.toJson.text = .error e ∧ e = .notJson error ∧
        e.payload = "recursion limit exceeded at line " ++ toString error.position.line ++
          " column " ++ toString error.position.column) ∧
    ((∀ c ∈ g.members.conditions, ∃ d, Condition.ofJson c.toJson = .ok d) →
      (g.depth ≤ 61 → ∃ h, Group.parse g.toJson.text = .ok h) ∧
      (63 ≤ g.depth → ∃ e, Group.parse g.toJson.text = .error e)) := by
  have hp : g.toJson.Printable := by
    apply Member.printable_toJson
    intro c hc x hx
    apply Json.printable_ofDouble
    rintro y rfl
    exact hg c hc y hx
  have hn : 2 * g.depth + 2 ≤ g.toJson.nesting ∧ g.toJson.nesting ≤ 2 * g.depth + 5 :=
    g.toMember.nesting_toJson
  refine ⟨Group.parse_text_of_le hp, ?_, ?_⟩
  · intro h
    obtain ⟨position, he⟩ := Group.parse_text_of_lt hp h
    exact ⟨_, _, he, rfl, rfl⟩
  · intro hread
    constructor
    · intro hd
      have hr : ∀ c ∈ g.members.conditions, c.test.Readable := by
        intro c hc
        obtain ⟨d, hd⟩ := hread c hc
        exact ((Condition.ofJson_toJson_iff c d).mp hd).1
      have hle : g.toJson.nesting ≤ Json.maxDepth := by
        unfold Json.maxDepth
        omega
      rw [Group.parse_text_of_le hp hle]
      exact ⟨g.reread, (Group.ofJson_toJson_iff g _).mpr ⟨hr, rfl⟩⟩
    · intro hd
      have hlt : Json.maxDepth < g.toJson.nesting := by
        unfold Json.maxDepth
        omega
      obtain ⟨position, he⟩ := Group.parse_text_of_lt hp hlt
      exact ⟨_, he⟩

/-- A name with characters to be escaped, the largest index and minus zero. -/
theorem Group.parse_text_escapes :
    ∃ h, Group.parse (Group.toJson ⟨.or, .last (.condition
      ⟨.updated ⟨[.literal "\n\"\\\x01é", .param "b"], by decide⟩,
        .listGet 18446744073709551615 .lt (.number (.finite ⟨true, .zero⟩))⟩)⟩).text = .ok h := by
  refine ((Group.parse_text _ ?_).2.2 ?_).1 (by decide)
  · intro c hc x hx
    obtain rfl := List.mem_singleton.mp hc
    obtain rfl : x = ⟨true, .zero⟩ := by simpa [Test.numbers, Scalar.numbers] using hx
    have hi : Magnitude.zero.Integral := Magnitude.integral_of_quanta_eq_zero rfl
    have hf : Magnitude.zero.floor = 0 := (Magnitude.floor_eq_zero_iff hi).mpr rfl
    exact ⟨hi, by rw [hf]; exact Nat.zero_le _⟩
  · intro c hc
    obtain rfl := List.mem_singleton.mp hc
    exact ⟨_, rfl⟩

end AccessRules
