import AccessRules.Proofs.Members
import AccessRules.Proofs.Tuple.Operands

/-! Conditions and groups are read exactly from the values of the grammar. -/
namespace AccessRules

namespace Test

theorem ofChoices_eq_ok_iff (v : Json) (t : Test) :
    ofChoices v = .ok t ↔
      (∃ ns : List Json.Number,
        v = .array (ns.map .number) ∧ .inNumbers (ns.map Json.Number.toDouble) = t) ∨
      ∃ s ss, v = .array ((s :: ss).map .string) ∧ .inStrings (s :: ss) = t := by
  constructor
  · intro h
    obtain ⟨items, hi, h⟩ := Outcome.bind_eq_ok_iff.mp h
    obtain rfl := (Json.expectArray_eq_ok_iff _ v items).mp hi
    split at h
    next =>
      obtain ⟨xs, hx, h⟩ := Outcome.bind_eq_ok_iff.mp h
      obtain ⟨ns, rfl, rfl⟩ := (Json.mapM_expectNumber_eq_ok_iff items xs).mp hx
      exact Or.inl ⟨ns, rfl, Except.ok.inj h⟩
    next hn =>
      split at h
      next =>
        obtain ⟨ss, hs, h⟩ := Outcome.bind_eq_ok_iff.mp h
        have hs' := (Json.expectStrings_eq_ok_iff _ ss).mp hs
        cases ss with
        | nil =>
          -- The empty list is taken for numbers.
          cases hs'
          exact (hn rfl).elim
        | cons s ss => exact Or.inr ⟨s, ss, hs', Except.ok.inj h⟩
      next => cases h
  · rintro (⟨ns, rfl, rfl⟩ | ⟨s, ss, rfl, rfl⟩)
    · have ha : (ns.map Json.number).all Json.isNumber = true := by
        simp [Json.isNumber]
      have hm := (Json.mapM_expectNumber_eq_ok_iff (ns.map .number) _).mpr ⟨ns, rfl, rfl⟩
      simp only [ofChoices, Json.expectArray, Outcome.ok_bind, ha, if_true, hm, Outcome.pure_eq]
    · exact ofChoices_strings (s :: ss)

theorem ofComparison_eq_ok_iff (op : Comparison) (v : Json) (t : Test) :
    ofComparison op v = .ok t ↔
      (∃ n : Json.Number, v = .number n ∧ .compareNumber op n.toDouble = t) ∨
      ∃ value, (op = .eq ∨ op = .ne) ∧ Scalar.TupleForm v value ∧ value.IsText ∧
        .compareString op value = t := by
  have ho : op.isEquality = true ↔ op = .eq ∨ op = .ne := by
    cases op <;> simp [Comparison.isEquality]
  unfold ofComparison
  simp only [Outcome.bind_eq_ok_iff, Scalar.ofJson_eq_ok_iff]
  constructor
  · rintro ⟨value, hv, h⟩
    split at h
    next x =>
      cases hv with
      | number n => exact Or.inl ⟨n, rfl, Except.ok.inj h⟩
    next hn =>
      split at h
      next he =>
        have ht : value.IsText := by
          cases value with
          | number x => exact hn x rfl
          | _ => trivial
        exact Or.inr ⟨value, ho.mp he, hv, ht, Except.ok.inj h⟩
      next => cases h
  · rintro (⟨n, rfl, rfl⟩ | ⟨value, he, hv, ht, rfl⟩)
    · exact ⟨_, .number n, rfl⟩
    · refine ⟨value, hv, ?_⟩
      cases value with
      | number x => exact ht.elim
      | _ => simp [ho.mpr he]

theorem index?_eq_some_iff (n : Json.Number) (i : UInt64) :
    n.index? = some i ↔ Json.number n = .ofIndex i := by
  constructor
  · intro h
    cases n with
    | integer k hk =>
      simp only [Json.Number.index?] at h
      split at h
      next hp =>
        obtain rfl := Option.some.inj h
        simp only [Json.ofIndex, UInt64.toNat_ofNat']
        congr
        omega
      next => cases h
    | double x => cases h
  · intro h
    obtain rfl := Json.number.inj h
    exact Json.Number.index?_toNat i _

theorem ofGet_eq_ok_iff (u v w : Json) (t : Test) :
    ofGet u v w = .ok t ↔
      ∃ (op : Comparison) (value : Scalar), v = .ofToken op ∧ Scalar.TupleForm w value ∧
        ((∃ i, u = .ofIndex i ∧ .listGet i op value = t) ∨
          ∃ key, Segment.TupleForm u key ∧ .mapGet key op value = t) := by
  unfold ofGet
  simp only [Outcome.bind_eq_ok_iff, Json.expectToken_eq_ok_iff, Scalar.ofJson_eq_ok_iff]
  constructor
  · rintro ⟨op, hop, value, hv, h⟩
    refine ⟨op, value, hop, hv, ?_⟩
    split at h
    next n =>
      split at h
      next i hi => exact Or.inl ⟨i, (index?_eq_some_iff n i).mp hi, Except.ok.inj h⟩
      next => cases h
    next =>
      obtain ⟨key, hk, h⟩ := Outcome.bind_eq_ok_iff.mp h
      exact Or.inr ⟨key, (Segment.ofJson_eq_ok_iff u key).mp hk, Except.ok.inj h⟩
  · rintro ⟨op, value, rfl, hv, ⟨i, rfl, rfl⟩ | ⟨key, hk, rfl⟩⟩
    · exact ⟨op, rfl, value, hv, by simp [Json.ofIndex]⟩
    · refine ⟨op, rfl, value, hv, ?_⟩
      have hs := (Segment.ofJson_eq_ok_iff u key).mpr hk
      cases hk <;> simp [hs]

/-- Each line of the reader's table admits only its own line of the grammar. -/
theorem tupleForm_of_ofTuple {whole : Json} {token : String} {operands : List Json} {t : Test}
    (h : ofTuple whole token operands = .ok t) :
    Test.TupleForm (.string token :: operands) t.category t := by
  unfold ofTuple at h
  -- One case for each line of the table, in its order.
  split at h
  next unit amount hw =>
    simp only [Outcome.bind_eq_ok_iff, Json.expectToken_eq_ok_iff, Json.expectNumber_eq_ok_iff,
      Outcome.pure_eq, Except.ok.injEq] at h
    obtain ⟨u, rfl, _, ⟨n, rfl, rfl⟩, rfl⟩ := h
    rw [← Token.token_of_ofString? hw]
    exact .within u n
  next hw =>
    obtain rfl := Except.ok.inj h
    rw [← Token.token_of_ofString? hw]
    exact .isInteger
  next hw =>
    obtain rfl := Except.ok.inj h
    rw [← Token.token_of_ofString? hw]
    exact .isFloat
  next list hw =>
    rw [← Token.token_of_ofString? hw]
    obtain ⟨ns, rfl, rfl⟩ | ⟨s, ss, rfl, rfl⟩ := (ofChoices_eq_ok_iff list t).mp h
    · exact .inNumbers ns
    · exact .inStrings s ss
  next op n hw =>
    simp only [Outcome.bind_eq_ok_iff, Json.expectToken_eq_ok_iff, Json.expectNumber_eq_ok_iff,
      Outcome.pure_eq, Except.ok.injEq] at h
    obtain ⟨op, rfl, _, ⟨n, rfl, rfl⟩, rfl⟩ := h
    rw [← Token.token_of_ofString? hw]
    exact .stringSize op n
  next target op n hw =>
    simp only [Outcome.bind_eq_ok_iff, Target.ofJson_eq_ok_iff, Json.expectToken_eq_ok_iff,
      Json.expectNumber_eq_ok_iff, Outcome.pure_eq, Except.ok.injEq] at h
    obtain ⟨target, ht, op, rfl, _, ⟨n, rfl, rfl⟩, rfl⟩ := h
    rw [← Token.token_of_ofString? hw]
    exact .distance ht op n
  next key op value hw =>
    rw [← Token.token_of_ofString? hw]
    obtain ⟨op, value, rfl, hv, ⟨i, rfl, rfl⟩ | ⟨key, hk, rfl⟩⟩ := (ofGet_eq_ok_iff _ _ _ t).mp h
    · exact .listGet i op hv
    · exact .mapGet hk op hv
  next op list hw =>
    simp only [Outcome.bind_eq_ok_iff, Json.expectToken_eq_ok_iff, Json.expectStrings_eq_ok_iff,
      Outcome.pure_eq, Except.ok.injEq] at h
    obtain ⟨op, rfl, keys, rfl, rfl⟩ := h
    rw [← Token.token_of_ofString? hw]
    exact .mapKeys op keys
  next op list hw =>
    simp only [Outcome.bind_eq_ok_iff, Json.expectToken_eq_ok_iff, Literal.listOfJson_eq_ok_iff,
      Outcome.pure_eq, Except.ok.injEq] at h
    obtain ⟨op, rfl, values, ⟨items, rfl, hv⟩, rfl⟩ := h
    rw [← Token.token_of_ofString? hw]
    exact .mapValues op hv
  next => cases h
  next op list hw =>
    simp only [Outcome.bind_eq_ok_iff, Literal.listOfJson_eq_ok_iff, Outcome.pure_eq,
      Except.ok.injEq] at h
    obtain ⟨values, ⟨items, rfl, hv⟩, rfl⟩ := h
    rw [← Token.token_of_ofString? hw]
    exact .listSet op hv
  next op operand hw =>
    rw [← Token.token_of_ofString? hw]
    obtain ⟨n, rfl, rfl⟩ | ⟨value, ho, hv, ht, rfl⟩ := (ofComparison_eq_ok_iff op operand t).mp h
    · exact .compareNumber op n
    · exact .compareString op ho hv ht
  next => cases h

/-- Each line of the grammar is found in the reader's table, behind the verb it starts with. -/
theorem TupleForm.exists_verb {tail : List Json} {k : Category} {t : Test}
    (h : Test.TupleForm tail k t) :
    ∃ (verb : Verb) (operands : List Json), tail = .ofToken verb :: operands ∧
      ∀ whole, ofTuple whole (Token.token verb) operands = .ok t := by
  cases h with
  | within unit n =>
    refine ⟨.within, _, rfl, fun whole => ?_⟩
    simp [ofTuple, Token.Exact.ofString?_token, Json.expectNumber]
  | isInteger => exact ⟨.isInteger, _, rfl, fun whole => rfl⟩
  | isFloat => exact ⟨.isFloat, _, rfl, fun whole => rfl⟩
  | inNumbers ns =>
    refine ⟨.choice, _, rfl, fun whole => ?_⟩
    simp only [ofTuple, Token.Exact.ofString?_token]
    exact (ofChoices_eq_ok_iff _ _).mpr (Or.inl ⟨ns, rfl, rfl⟩)
  | inStrings s ss =>
    refine ⟨.choice, _, rfl, fun whole => ?_⟩
    simp only [ofTuple, Token.Exact.ofString?_token]
    exact (ofChoices_eq_ok_iff _ _).mpr (Or.inr ⟨s, ss, rfl, rfl⟩)
  | stringSize op n =>
    refine ⟨.size, _, rfl, fun whole => ?_⟩
    simp [ofTuple, Token.Exact.ofString?_token, Json.expectNumber]
  | distance ht op n =>
    refine ⟨.distance, _, rfl, fun whole => ?_⟩
    simp [ofTuple, Token.Exact.ofString?_token, Json.expectNumber,
      (Target.ofJson_eq_ok_iff _ _).mpr ht]
  | mapGet hk op hv =>
    refine ⟨.get, _, rfl, fun whole => ?_⟩
    simp only [ofTuple, Token.Exact.ofString?_token]
    exact (ofGet_eq_ok_iff _ _ _ _).mpr ⟨op, _, rfl, hv, Or.inr ⟨_, hk, rfl⟩⟩
  | listGet i op hv =>
    refine ⟨.get, _, rfl, fun whole => ?_⟩
    simp only [ofTuple, Token.Exact.ofString?_token]
    exact (ofGet_eq_ok_iff _ _ _ _).mpr ⟨op, _, rfl, hv, Or.inl ⟨i, rfl, rfl⟩⟩
  | mapKeys op keys =>
    refine ⟨.keys, _, rfl, fun whole => ?_⟩
    simp [ofTuple, Token.Exact.ofString?_token, (Json.expectStrings_eq_ok_iff _ keys).mpr rfl]
  | mapValues op hv =>
    refine ⟨.values, _, rfl, fun whole => ?_⟩
    simp [ofTuple, Token.Exact.ofString?_token, (Literal.listOfJson_eq_ok_iff _ _).mpr ⟨_, rfl, hv⟩]
  | listSet op hv =>
    refine ⟨.set op, _, rfl, fun whole => ?_⟩
    simp [ofTuple, Token.Exact.ofString?_token, (Literal.listOfJson_eq_ok_iff _ _).mpr ⟨_, rfl, hv⟩]
  | compareNumber op n =>
    refine ⟨.compare op, _, rfl, fun whole => ?_⟩
    simp only [ofTuple, Token.Exact.ofString?_token]
    exact (ofComparison_eq_ok_iff _ _ _).mpr (Or.inl ⟨n, rfl, rfl⟩)
  | compareString op ho hv ht =>
    refine ⟨.compare op, _, rfl, fun whole => ?_⟩
    simp only [ofTuple, Token.Exact.ofString?_token]
    exact (ofComparison_eq_ok_iff _ _ _).mpr (Or.inr ⟨_, ho, hv, ht, rfl⟩)

end Test

theorem Condition.ofJson_eq_ok_iff (v : Json) (c : Condition) :
    Condition.ofJson v = .ok c ↔ Condition.TupleForm v c.category c := by
  constructor
  · intro h
    unfold Condition.ofJson at h
    split at h
    next =>
      obtain ⟨f, hf, h⟩ := Outcome.bind_eq_ok_iff.mp h
      obtain rfl := Except.ok.inj h
      exact .bare ((Field.ofJson_eq_ok_iff v f).mp hf)
    next =>
      split at h
      next u w operands =>
        simp only [Outcome.bind_eq_ok_iff, Json.expectString_eq_ok_iff, Field.ofJson_eq_ok_iff] at h
        obtain ⟨f, hf, token, rfl, t, ht, h⟩ := h
        obtain rfl := Except.ok.inj h
        exact .tuple hf (Test.tupleForm_of_ofTuple ht)
      next => cases h
      next => cases h
  · intro h
    generalize c.category = k at h
    cases h with
    | bare hf =>
      simp [Condition.ofJson, hf.isField, (Field.ofJson_eq_ok_iff _ _).mpr hf]
    | tuple hf ht =>
      obtain ⟨verb, operands, rfl, ho⟩ := ht.exists_verb
      simp [Condition.ofJson, hf.isField_cons, (Field.ofJson_eq_ok_iff _ _).mpr hf, Json.ofToken,
        Json.expectString, ho]

theorem unknownKey?_eq_none_iff (entries : List (String × Json)) :
    unknownKey? entries = none ↔ ∀ e ∈ entries, e.1 = "operation" ∨ e.1 = "conditions" := by
  induction entries with
  | nil => simp [unknownKey?]
  | cons e entries ih =>
    rw [unknownKey?, List.forall_mem_cons, ← ih]
    split
    next hk => simp [hk]
    next hk =>
      simp only [hk, false_and, iff_false]
      split <;> simp

theorem Group.ofEntries_eq_ok_iff (entries : List (String × Json))
    (members : Except Malformed (List Member)) (g : Group) :
    Group.ofEntries entries members = .ok g ↔
      (∀ e ∈ entries, e.1 = "operation" ∨ e.1 = "conditions") ∧
        entries.lookup "operation" = some (.ofToken g.connective) ∧
        members = .ok g.members.toList := by
  unfold Group.ofEntries
  rw [← unknownKey?_eq_none_iff]
  cases unknownKey? entries with
  | some key => simp
  | none =>
    cases entries.lookup "operation" with
    | none => simp
    | some word =>
      simp only [Outcome.bind_eq_ok_iff, Json.expectToken_eq_ok_iff, Group.ofList_eq_ok_iff]
      constructor
      · rintro ⟨connective, rfl, list, hl, rfl, rfl⟩
        exact ⟨trivial, rfl, hl⟩
      · rintro ⟨-, hw, hl⟩
        exact ⟨g.connective, Option.some.inj hw, _, hl, rfl, rfl⟩

theorem Member.ofJson_of_not_object {v : Json} (hv : ∀ entries, v ≠ .object entries) :
    Member.ofJson v = Member.condition <$> Condition.ofJson v := by
  cases v with
  | object entries => exact (hv entries rfl).elim
  | _ => simp [Member.ofJson]

theorem membersOfEntries_of_ne (whole : Json) {key : String} (v : Json)
    (entries : List (String × Json)) (hk : key ≠ "conditions") :
    membersOfEntries whole ((key, v) :: entries) = membersOfEntries whole entries := by
  cases v <;> simp [membersOfEntries, hk]

mutual

theorem Member.ofJson_eq_ok_iff (v : Json) (m : Member) :
    Member.ofJson v = .ok m ↔ Member.TupleForm v m := by
  match v with
  | .object entries =>
    have hm := membersOfEntries_eq_ok_iff (.object entries) entries
    rw [Member.ofJson, Member.tupleForm_object_iff, Outcome.map_eq_ok_iff]
    simp only [Group.ofEntries_eq_ok_iff, hm]
    constructor
    · rintro ⟨g, hg, rfl⟩
      exact ⟨g, rfl, hg⟩
    · rintro ⟨g, rfl, hg⟩
      exact ⟨g, hg, rfl⟩
  | .null | .bool _ | .number _ | .string _ | .array _ =>
    rw [Member.ofJson_of_not_object (by simp), Member.tupleForm_iff_of_not_object (by simp),
      Outcome.map_eq_ok_iff]
    simp only [Condition.ofJson_eq_ok_iff]

theorem membersOfEntries_eq_ok_iff (whole : Json) (entries : List (String × Json))
    (list : List Member) :
    membersOfEntries whole entries = .ok list ↔
      ∃ items, entries.lookup "conditions" = some (.array items) ∧
        List.Forall₂ Member.TupleForm items list := by
  match entries with
  | [] => simp [membersOfEntries]
  | (key, v) :: entries =>
    have ih := membersOfEntries_eq_ok_iff whole entries list
    by_cases hk : key = "conditions"
    · have hl : List.lookup "conditions" ((key, v) :: entries) = some v := by simp [hk]
      rw [hl]
      match v with
      | .array items =>
        have hi := membersOfItems_eq_ok_iff items list
        simpa [membersOfEntries, hk] using hi
      | .null | .bool _ | .number _ | .string _ | .object _ => simp [membersOfEntries, hk]
    · have hb : ("conditions" == key) = false := by simpa using Ne.symm hk
      rw [membersOfEntries_of_ne whole v entries hk, ih, List.lookup_cons, hb]

theorem membersOfItems_eq_ok_iff (items : List Json) (list : List Member) :
    membersOfItems items = .ok list ↔ List.Forall₂ Member.TupleForm items list := by
  match items with
  | [] => simp [membersOfItems, eq_comm]
  | v :: vs =>
    have hv := Member.ofJson_eq_ok_iff v
    have ih := membersOfItems_eq_ok_iff vs
    rw [membersOfItems, List.forall₂_cons_left_iff]
    simp only [Outcome.bind_eq_ok_iff, hv, ih]
    constructor
    · rintro ⟨m, hm, ms, hms, h⟩
      exact ⟨m, ms, hm, hms, (Except.ok.inj h).symm⟩
    · rintro ⟨m, ms, hm, hms, rfl⟩
      exact ⟨m, hm, ms, hms, rfl⟩

end

theorem Group.toMember_inj {g h : Group} (he : g.toMember = h.toMember) : g = h := by
  obtain ⟨p, ms⟩ := g
  obtain ⟨q, ns⟩ := h
  cases he
  rfl

theorem Group.ofJson_eq_ok_iff (v : Json) (g : Group) :
    Group.ofJson v = .ok g ↔ Group.TupleForm v g := by
  have hm := Member.ofJson_eq_ok_iff v g.toMember
  rw [Group.TupleForm, ← hm]
  cases v with
  | object entries =>
    rw [Member.ofJson, Group.ofJson, Outcome.map_eq_ok_iff]
    constructor
    · intro h
      exact ⟨g, h, rfl⟩
    · rintro ⟨h, hh, he⟩
      rwa [← Group.toMember_inj he]
  | _ =>
    rw [Member.ofJson_of_not_object (by simp), Outcome.map_eq_ok_iff]
    simp [Group.ofJson, Group.toMember]

/-- The reader accepts exactly the grammar, and gives a condition the category of its line. -/
theorem ofJson_iff_tupleForm :
    (∀ (v : Json) (k : Category) (c : Condition),
      Condition.ofJson v = .ok c ∧ c.category = k ↔ Condition.TupleForm v k c) ∧
    (∀ (v : Json) (g : Group), Group.ofJson v = .ok g ↔ Group.TupleForm v g) := by
  constructor
  · intro v k c
    rw [Condition.ofJson_eq_ok_iff]
    constructor
    · rintro ⟨h, rfl⟩
      exact h
    · intro h
      have hk := h.category_eq
      exact ⟨by rwa [hk], hk⟩
  · exact Group.ofJson_eq_ok_iff

end AccessRules
