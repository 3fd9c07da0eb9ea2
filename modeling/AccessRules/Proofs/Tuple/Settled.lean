import AccessRules.Load
import AccessRules.Proofs.Json.Sorted
import AccessRules.Proofs.Tuple.Acceptance
import AccessRules.Proofs.Tuple.Canonical

/-! Writing what was read gives the value back, with its numbers in the form they are written in. -/
namespace AccessRules

namespace Json

/-- The number that stands as the key of a `get` tuple. -/
def tupleIndex? : List Json → Option Number
  | field :: .string verb :: .number n :: _ =>
    if field.isField ∧ verb = "get" then some n else none
  | _ => none

mutual

/-- The value with each number in the form that its double is written in. The index of a `get` tuple
stays as it is. -/
def settled : Json → Json
  | .number n => .ofDouble n.toDouble
  | .array items =>
    match tupleIndex? items with
    | some n => .array ((settledItems items).set 2 (.number n))
    | none => .array (settledItems items)
  | .object entries => .object (settledEntries entries)
  | v => v

def settledItems : List Json → List Json
  | [] => []
  | v :: vs => v.settled :: settledItems vs

def settledEntries : List (String × Json) → List (String × Json)
  | [] => []
  | (key, v) :: entries => (key, v.settled) :: settledEntries entries

end

/-- Only behind a field is a number taken for an index. -/
theorem settled_array_of_not_isField {v : Json} {vs : List Json} (hv : v.isField = false) :
    settled (.array (v :: vs)) = .array (settledItems (v :: vs)) := by
  have hn : tupleIndex? (v :: vs) = none := by
    unfold tupleIndex?
    split
    next heq =>
      obtain ⟨rfl, -⟩ := List.cons.inj heq
      simp [hv]
    next => rfl
  rw [settled, hn]

/-- The list of what is described by the items of a list. -/
theorem settled_array_of_forall₂ {α : Type} {R : Json → α → Prop} {g : α → Json}
    (hg : ∀ v a, R v a → v.settled = g a) (hf : ∀ v a, R v a → v.isField = false)
    {items : List Json} {as : List α} (h : List.Forall₂ R items as) :
    settled (.array items) = .array (as.map g) := by
  have hs : settledItems items = as.map g := by
    induction h with
    | nil => rfl
    | cons hv _ ih => rw [settledItems, hg _ _ hv, ih, List.map_cons]
  cases h with
  | nil => rfl
  | cons hv _ => rw [settled_array_of_not_isField (hf _ _ hv), hs]

theorem settled_strings (ss : List String) : settled (.array (ss.map .string)) = .ofStrings ss := by
  apply settled_array_of_forall₂ (R := fun v s => v = .string s)
  · rintro _ s rfl
    rfl
  · rintro _ s rfl
    rfl
  · simp [List.forall₂_map_left_iff, List.forall₂_same]

theorem settled_numbers (ns : List Number) :
    settled (.array (ns.map .number)) = .array ((ns.map Number.toDouble).map .ofDouble) := by
  rw [List.map_map]
  apply settled_array_of_forall₂ (R := fun v n => v = .number n)
  · rintro _ n rfl
    rfl
  · rintro _ n rfl
    rfl
  · simp [List.forall₂_map_left_iff, List.forall₂_same]

/-- The numbers of a tuple with another verb than `get` are operands. -/
theorem settled_tuple_of_ne {v : Json} {verb : String} (hv : verb ≠ "get") (operands : List Json) :
    settled (.array (v :: .string verb :: operands)) =
      .array (v.settled :: .string verb :: settledItems operands) := by
  have hn : tupleIndex? (v :: .string verb :: operands) = none := by
    unfold tupleIndex?
    split
    next heq =>
      obtain ⟨-, heq⟩ := List.cons.inj heq
      obtain ⟨heq, -⟩ := List.cons.inj heq
      cases heq
      simp [hv]
    next => rfl
  rw [settled, hn]
  rfl

end Json

theorem Segment.TupleForm.settled_eq {v : Json} {s : Segment} (h : Segment.TupleForm v s) :
    v.settled = s.toJson := by
  cases h <;> rfl

theorem Segment.TupleForm.isField_eq_false {v : Json} {s : Segment} (h : Segment.TupleForm v s) :
    v.isField = false := by
  cases h <;> rfl

theorem Path.TupleForm.settled_eq {v : Json} {p : Path} (h : Path.TupleForm v p) :
    v.settled = p.toJson := by
  obtain ⟨hs⟩ := h
  exact Json.settled_array_of_forall₂ (fun _ _ h => h.settled_eq)
    (fun _ _ h => h.isField_eq_false) hs

theorem Field.TupleForm.settled_eq {v : Json} {f : Field} (h : Field.TupleForm v f) :
    v.settled = f.toJson := by
  cases h with
  | here hp =>
    rw [Json.settled_array_of_not_isField rfl]
    simp [Json.settledItems, Json.settled, hp.settled_eq, Field.toJson]
  | elsewhere hd hp =>
    rw [Json.settled_array_of_not_isField rfl]
    simp only [Json.settledItems, hd.settled_eq, Field.toJson]
    rw [Json.settled_array_of_not_isField rfl]
    simp [Json.settledItems, Json.settled, hp.settled_eq]
  | updated hp =>
    rw [Json.settled_array_of_not_isField rfl]
    simp [Json.settledItems, Json.settled, hp.settled_eq, Field.toJson]

theorem Literal.TupleForm.settled_eq {v : Json} {l : Literal} (h : Literal.TupleForm v l) :
    v.settled = l.toJson := by
  cases h <;> rfl

theorem Literal.TupleForm.isField_eq_false {v : Json} {l : Literal} (h : Literal.TupleForm v l) :
    v.isField = false := by
  cases h <;> rfl

theorem Literal.settled_array {items : List Json} {values : List Literal}
    (h : List.Forall₂ Literal.TupleForm items values) :
    Json.settled (.array items) = .array (values.map Literal.toJson) :=
  Json.settled_array_of_forall₂ (fun _ _ h => h.settled_eq) (fun _ _ h => h.isField_eq_false) h

theorem Scalar.TupleForm.settled_eq {v : Json} {value : Scalar} (h : Scalar.TupleForm v value) :
    v.settled = value.toJson := by
  cases h <;> rfl

theorem Target.TupleForm.settled_eq {v : Json} {t : Target} (h : Target.TupleForm v t) :
    v.settled = t.toJson := by
  cases h with
  | point m n => rfl
  | field hf => exact hf.settled_eq

/-- Writing the tuple of a field and a test gives back the tuple that they were read from. -/
theorem Test.TupleForm.settled_eq {u : Json} {f : Field} (hf : Field.TupleForm u f)
    {tail : List Json} {k : Category} {t : Test} (h : Test.TupleForm tail k t) :
    Json.settled (.array (u :: tail)) = .array (f.toJson :: t.tail) := by
  have hc (op : Comparison) : Token.token op ≠ "get" := by cases op <;> decide
  have hs (op : SetOperation) : Token.token op ≠ "get" := by cases op <;> decide
  rw [← hf.settled_eq]
  cases h with
  | within unit n => exact Json.settled_tuple_of_ne (by decide) _
  | isInteger => exact Json.settled_tuple_of_ne (by decide) _
  | isFloat => exact Json.settled_tuple_of_ne (by decide) _
  | inNumbers ns =>
    rw [Json.settled_tuple_of_ne (by decide), Json.settledItems, Json.settled_numbers]
    rfl
  | inStrings s ss =>
    rw [Json.settled_tuple_of_ne (by decide), Json.settledItems, Json.settled_strings]
    rfl
  | stringSize op n => exact Json.settled_tuple_of_ne (by decide) _
  | distance ht op n =>
    rw [Json.settled_tuple_of_ne (by decide), Json.settledItems, ht.settled_eq]
    rfl
  | @mapGet v w _ _ hk op hv =>
    have hn : Json.tupleIndex? [u, .string "get", v, .ofToken op, w] = none := by
      cases hk <;> rfl
    rw [Json.settled, hn]
    simp only [Json.settledItems, hk.settled_eq, hv.settled_eq]
    rfl
  | @listGet i op w _ hv =>
    have hi : Json.tupleIndex? [u, .string "get", .ofIndex i, .ofToken op, w] =
        some (.integer i.toNat (by have := i.toNat_lt; omega)) := by
      simp [Json.tupleIndex?, Json.ofIndex, hf.isField]
    rw [Json.settled, hi]
    simp only [Json.settledItems, hv.settled_eq]
    rfl
  | mapKeys op keys =>
    rw [Json.settled_tuple_of_ne (by decide)]
    simp only [Json.settledItems, Json.settled_strings]
    rfl
  | mapValues op hv =>
    rw [Json.settled_tuple_of_ne (by decide)]
    simp only [Json.settledItems, Literal.settled_array hv]
    rfl
  | listSet op hv =>
    rw [Json.ofToken, Json.settled_tuple_of_ne (hs op), Json.settledItems, Literal.settled_array hv]
    rfl
  | compareNumber op n => exact Json.settled_tuple_of_ne (hc op) _
  | compareString op ho hv ht =>
    rw [Json.ofToken, Json.settled_tuple_of_ne (hc op), Json.settledItems, hv.settled_eq]
    rfl

theorem Condition.TupleForm.toJson_eq {v : Json} {k : Category} {c : Condition}
    (h : Condition.TupleForm v k c) : c.toJson = v.settled := by
  cases h with
  | bare hf => exact hf.settled_eq.symm
  | tuple hf ht =>
    rw [ht.settled_eq hf]
    cases ht <;> rfl

theorem Scalar.TupleForm.isFinite {v : Json} {value : Scalar} (h : Scalar.TupleForm v value) :
    ∀ x ∈ value.numbers, x.IsFinite := by
  cases h with
  | number n => simpa [Scalar.numbers] using n.isFinite_toDouble
  | _ => simp [Scalar.numbers]

theorem Literal.TupleForm.isFinite {v : Json} {l : Literal} (h : Literal.TupleForm v l) :
    ∀ x ∈ l.numbers, x.IsFinite := by
  cases h with
  | number n => simpa [Literal.numbers] using n.isFinite_toDouble
  | string s => simp [Literal.numbers]

theorem Literal.isFinite_of_forall₂ {items : List Json} {values : List Literal}
    (h : List.Forall₂ Literal.TupleForm items values) :
    ∀ x ∈ values.flatMap Literal.numbers, x.IsFinite := by
  induction h with
  | nil => simp
  | cons hv _ ih =>
    rw [List.flatMap_cons, List.forall_mem_append]
    exact ⟨hv.isFinite, ih⟩

/-- What is read from a value is canonical, since every JSON number is finite. -/
theorem Condition.TupleForm.canonical {v : Json} {k : Category} {c : Condition}
    (h : Condition.TupleForm v k c) : c.Canonical := by
  cases h with
  | bare hf => exact ⟨by simp [Test.numbers], trivial⟩
  | tuple hf ht =>
    cases ht with
    | inNumbers ns => exact ⟨by simp [Test.numbers, Json.Number.isFinite_toDouble], trivial⟩
    | inStrings s ss => exact ⟨by simp [Test.numbers], List.cons_ne_nil s ss⟩
    | distance ht op n =>
      refine ⟨?_, trivial⟩
      cases ht <;> simp [Test.numbers, Target.numbers, Json.Number.isFinite_toDouble]
    | mapGet hk op hv => exact ⟨hv.isFinite, trivial⟩
    | listGet i op hv => exact ⟨hv.isFinite, trivial⟩
    | mapValues op hv => exact ⟨Literal.isFinite_of_forall₂ hv, trivial⟩
    | listSet op hv => exact ⟨Literal.isFinite_of_forall₂ hv, trivial⟩
    | compareString op ho hv ht =>
      refine ⟨hv.isFinite, ?_, ht⟩
      rcases ho with rfl | rfl <;> rfl
    | _ => exact ⟨by simp [Test.numbers, Json.Number.isFinite_toDouble], trivial⟩

mutual

theorem Member.TupleForm.canonical {v : Json} {m : Member} (h : Member.TupleForm v m) :
    ∀ c ∈ m.conditions, c.Canonical := by
  match h with
  | .condition hc =>
    intro c hm
    obtain rfl := List.mem_singleton.mp hm
    exact hc.canonical
  | .group _ _ _ hm => exact hm.canonical

theorem Members.TupleForm.canonical {items : List Json} {ms : Members}
    (h : Members.TupleForm items ms) : ∀ c ∈ ms.conditions, c.Canonical := by
  match h with
  | .last hm => exact hm.canonical
  | .cons hm hs => exact List.forall_mem_append.mpr ⟨hm.canonical, hs.canonical⟩

end

/-- A sorted object with exactly the two keys of a group has no other layout. -/
theorem entries_of_sorted {entries : List (String × Json)} {u v : Json}
    (hi : Json.Increasing entries) (hk : ∀ e ∈ entries, e.1 = "operation" ∨ e.1 = "conditions")
    (ho : entries.lookup "operation" = some u) (hc : entries.lookup "conditions" = some v) :
    entries = [("conditions", v), ("operation", u)] := by
  have hmax : ∀ e ∈ entries, ¬ "operation" < e.1 := by
    intro e he
    rcases hk e he with h | h <;> rw [h] <;> decide
  match entries with
  | [] => cases ho
  | [(k, w)] =>
    -- One entry cannot hold both keys.
    rcases hk (k, w) List.mem_cons_self with rfl | rfl
    · cases hc
    · cases ho
  | (k, w) :: (l, x) :: rest =>
    obtain ⟨hlt, hr⟩ := List.pairwise_cons.mp hi
    have hkl : k < l := hlt (l, x) List.mem_cons_self
    obtain ⟨rfl, rfl⟩ : k = "conditions" ∧ l = "operation" := by
      have hk₁ := hk (k, w) (by simp)
      have hk₂ := hk (l, x) (by simp)
      rcases hk₁ with rfl | rfl <;> rcases hk₂ with rfl | rfl
      · exact absurd hkl (by decide)
      · exact absurd hkl (by decide)
      · exact ⟨rfl, rfl⟩
      · exact absurd hkl (by decide)
    cases rest with
    | nil =>
      cases ho
      cases hc
      rfl
    | cons e rest =>
      have he := (List.pairwise_cons.mp hr).1 e List.mem_cons_self
      exact (hmax e (by simp) he).elim

theorem Member.TupleForm.isString_eq_false {v : Json} {m : Member} (h : Member.TupleForm v m) :
    v.isString = false := by
  cases h with
  | condition hc =>
    obtain ⟨items, rfl⟩ := hc.exists_items
    rfl
  | group => rfl

/-- No member of a group is a string, so the members are not taken for a tuple. -/
theorem Members.TupleForm.tupleIndex?_eq_none {items : List Json} {ms : Members}
    (h : Members.TupleForm items ms) : Json.tupleIndex? items = none := by
  cases h with
  | last hm => rfl
  | cons hm hs =>
    have hw {w : Json} {rest : List Json} {n : Member} (hn : Member.TupleForm w n) (v : Json) :
        Json.tupleIndex? (v :: w :: rest) = none := by
      have hstring := hn.isString_eq_false
      cases w with
      | string s => cases hstring
      | _ => rfl
    cases hs with
    | last hn => exact hw hn _
    | cons hn _ => exact hw hn _

mutual

theorem Member.TupleForm.toJson_eq {v : Json} {m : Member} (hs : v.Sorted)
    (h : Member.TupleForm v m) : m.toJson = v.settled := by
  match h with
  | .condition hc => exact hc.toJson_eq
  | .group hk ho hc hm =>
    cases hs with
    | object hi hv =>
      obtain rfl := entries_of_sorted hi hk ho hc
      have ha := hv _ List.mem_cons_self
      cases ha with
      | array ha =>
        have hn := hm.tupleIndex?_eq_none
        rw [Member.toJson, hm.toJsons_eq ha]
        simp only [Json.settled, Json.settledEntries, hn]
        rfl

theorem Members.TupleForm.toJsons_eq {items : List Json} {ms : Members}
    (hs : ∀ v ∈ items, v.Sorted) (h : Members.TupleForm items ms) :
    ms.toJsons = Json.settledItems items := by
  match h with
  | .last hm =>
    have hv := hm.toJson_eq (hs _ List.mem_cons_self)
    rw [Members.toJsons, hv]
    rfl
  | .cons hm hms =>
    obtain ⟨hv, hvs⟩ := List.forall_mem_cons.mp hs
    rw [Members.toJsons, hm.toJson_eq hv, hms.toJsons_eq hvs]
    rfl

end

/-- Objects that are read from text are sorted, so a group is written as the text has it, with the
numbers settled. -/
theorem Group.exists_load_of_parse {text : String} {g : Group} (h : Group.parse text = .ok g) :
    ∃ v, Json.load text = .ok v ∧ v.Sorted ∧ g.toJson = v.settled := by
  obtain ⟨v, hl, hg⟩ := Outcome.bind_eq_ok_iff.mp h
  have hs : v.Sorted := Json.sorted_of_read (Outcome.mapError_eq_ok_iff.mp hl)
  exact ⟨v, hl, hs, Member.TupleForm.toJson_eq hs ((Group.ofJson_eq_ok_iff v g).mp hg)⟩

section Rewriting

theorem Literal.toJson_settled (l : Literal) : (l.mapNumbers .settled).toJson = l.toJson := by
  cases l <;> simp [mapNumbers, toJson, Json.ofDouble_settled]

theorem Scalar.toJson_settled (s : Scalar) : (s.mapNumbers .settled).toJson = s.toJson := by
  cases s <;> simp [mapNumbers, toJson, Json.ofDouble_settled]

theorem Target.toJson_settled (t : Target) : (t.mapNumbers .settled).toJson = t.toJson := by
  cases t <;> simp [mapNumbers, toJson, Json.ofDouble_settled]

theorem Test.tail_settled (t : Test) : (t.mapNumbers .settled).tail = t.tail := by
  cases t <;> simp [mapNumbers, tail, Json.ofDouble_settled, Literal.toJson_settled,
    Scalar.toJson_settled, Target.toJson_settled]

theorem Condition.toJson_reread {c : Condition} (hc : c.test.KeepsCategory) :
    c.reread.toJson = c.toJson := by
  obtain ⟨f, t⟩ := c
  have ht := Test.tail_settled t
  rw [Condition.reread, Test.inferred_of_keepsCategory hc]
  cases t with
  | isTrue => rfl
  | _ => exact congrArg (fun tail => Json.array (f.toJson :: tail)) ht

/-- A group of canonical conditions is written, read and written again without a change. -/
theorem Group.exists_reread {g : Group} (hg : ∀ c ∈ g.members.conditions, c.Canonical) :
    ∃ h, Group.ofJson g.toJson = .ok h ∧ h.toJson = g.toJson ∧ (h == g) = true := by
  refine ⟨g.reread, ?_, ?_, ?_⟩
  · exact (Group.ofJson_toJson_iff g _).mpr ⟨fun c hc => (hg c hc).readable, rfl⟩
  · exact Member.toJson_mapConditions (m := g.toMember) fun c hc => Condition.toJson_reread (hg c hc).2
  · exact (Group.reread_beq_iff g).mpr fun c hc =>
      (Condition.reread_beq_iff (hg c hc).readable).mpr (hg c hc)

end Rewriting

/-- Writing what was read gives the value back with its numbers settled. The value is then read and
written without a change, and what is read from it is equal to what was read first. Objects must be
sorted, and those of every value that is read from text are. -/
theorem toJson_of_ofJson :
    (∀ (v : Json) (c : Condition), Condition.ofJson v = .ok c →
      c.toJson = v.settled ∧
        ∃ d, Condition.ofJson v.settled = .ok d ∧ d.toJson = v.settled ∧ (d == c) = true) ∧
    (∀ (v : Json) (g : Group), v.Sorted → Group.ofJson v = .ok g →
      g.toJson = v.settled ∧
        ∃ h, Group.ofJson v.settled = .ok h ∧ h.toJson = v.settled ∧ (h == g) = true) ∧
    (∀ (text : String) (g : Group), Group.parse text = .ok g →
      ∃ v, Json.load text = .ok v ∧ v.Sorted ∧ g.toJson = v.settled) := by
  refine ⟨?_, ?_, fun text g => Group.exists_load_of_parse⟩
  · intro v c h
    have hf := (Condition.ofJson_eq_ok_iff v c).mp h
    have hc := hf.canonical
    rw [← hf.toJson_eq]
    refine ⟨rfl, c.reread, ?_, Condition.toJson_reread hc.2, ?_⟩
    · exact (Condition.ofJson_toJson_iff c c.reread).mpr ⟨hc.readable, rfl⟩
    · exact (Condition.reread_beq_iff hc.readable).mpr hc
  · intro v g hs h
    have hf := (Group.ofJson_eq_ok_iff v g).mp h
    have hv : g.toJson = v.settled := Member.TupleForm.toJson_eq hs hf
    rw [← hv]
    exact ⟨rfl, Group.exists_reread (Member.TupleForm.canonical hf)⟩

/-- An index of `2 ^ 64 - 1` stays, where the operand minus zero becomes zero. -/
theorem toJson_of_ofJson_index :
    Group.toJson ⟨.or, .last (.condition ⟨.here ⟨[.literal "a"], by decide⟩,
        .listGet 18446744073709551615 .lt (.number (.finite ⟨true, .zero⟩))⟩)⟩ =
      Json.settled (.object [("conditions", .array [.array
        [.array [.string "field", .array [.string "a"]], .string "get",
          .number (.integer 18446744073709551615 (by decide)), .string "<",
          .number (.double ⟨true, .zero⟩)]]), ("operation", .string "||")]) :=
  (toJson_of_ofJson.2.1 _ _ (.object (List.pairwise_pair.mpr (by decide)) (by simp)) (by rfl)).1

end AccessRules
