import AccessRules.Proofs.Tuple.Groups

/-! Which conditions and groups survive being written and read back, and what becomes of the others. -/
namespace AccessRules

namespace Test

/-- The tuple form of the test is read in the category of the test. -/
def KeepsCategory : Test → Prop
  | .mapSize .. | .listSize .. => False
  | .inStrings values => values ≠ []
  | .compareString op value => op.isEquality = true ∧ value.IsText
  | _ => True

theorem keepsCategory_compareString_iff (op : Comparison) (value : Scalar) :
    (compareString op value).KeepsCategory ↔
      ¬ (compareString op value).OrdersText ∧ value.IsText := by
  cases value <;> simp [KeepsCategory, OrdersText, Scalar.IsText]

theorem inferred_of_keepsCategory {t : Test} (ht : t.KeepsCategory) : t.inferred = t := by
  cases t with
  | mapSize op x => exact ht.elim
  | listSize op x => exact ht.elim
  | inStrings values =>
    cases values with
    | nil => exact (ht rfl).elim
    | cons s values => rfl
  | compareString op value =>
    cases value with
    | number x => exact ht.2.elim
    | _ => rfl
  | _ => rfl

theorem not_ordersText_of_keepsCategory {t : Test} (ht : t.KeepsCategory) : ¬ t.OrdersText := by
  cases t with
  | compareString op value => exact ((keepsCategory_compareString_iff op value).mp ht).1
  | _ => exact id

/-- Only a test that keeps its category is read as a test of its own kind. -/
theorem keepsCategory_of_ctorIdx {t : Test} (ho : ¬ t.OrdersText)
    (hc : t.inferred.ctorIdx = t.ctorIdx) : t.KeepsCategory := by
  cases t with
  | mapSize op x => cases hc
  | listSize op x => cases hc
  | inStrings values =>
    rintro rfl
    cases hc
  | compareString op value =>
    rw [keepsCategory_compareString_iff]
    cases value with
    | number x => cases hc
    | _ => exact ⟨ho, trivial⟩
  | _ => trivial

theorem keepsCategory_inferred {t : Test} (ho : ¬ t.OrdersText) : t.inferred.KeepsCategory := by
  cases t with
  | inStrings values =>
    cases values with
    | nil => trivial
    | cons s values => exact List.cons_ne_nil s values
  | compareString op value =>
    cases value with
    | number x => trivial
    | _ => exact (keepsCategory_compareString_iff _ _).mpr ⟨ho, trivial⟩
  | _ => trivial

theorem keepsCategory_mapNumbers (f : Double → Double) (t : Test) :
    (t.mapNumbers f).KeepsCategory ↔ t.KeepsCategory := by
  cases t with
  | compareString op value => cases value <;> rfl
  | _ => rfl

theorem not_readable_iff (t : Test) :
    ¬ t.Readable ↔ (∃ x ∈ t.numbers, ¬ x.IsFinite) ∨ t.OrdersText := by
  unfold Readable
  rw [Classical.not_and_iff_not_or_not, Classical.not_not]
  simp only [Classical.not_forall, exists_prop]

end Test

namespace Condition

/-- Every number is finite, and the tuple form is read in the category of the condition. -/
def Canonical (c : Condition) : Prop :=
  (∀ x ∈ c.test.numbers, x.IsFinite) ∧ c.test.KeepsCategory

theorem Canonical.readable {c : Condition} (hc : c.Canonical) : c.test.Readable :=
  ⟨hc.1, Test.not_ordersText_of_keepsCategory hc.2⟩

theorem canonical_reread {c : Condition} (hc : c.test.Readable) : c.reread.Canonical := by
  obtain ⟨hf, ho⟩ := hc
  constructor
  · simpa [reread] using hf
  · exact (Test.keepsCategory_mapNumbers _ _).mpr (Test.keepsCategory_inferred ho)

/-- Up to the sign of zeros, a readable condition is read as itself in the inferred category. -/
theorem reread_beq {c : Condition} (hc : c.test.Readable) :
    (c.reread == (⟨c.field, c.test.inferred⟩ : Condition)) = true := by
  rw [beq_iff]
  refine ⟨rfl, ?_, Test.mapNumbers_idem Double.settled_settled _⟩
  intro x hx hn
  have hfin := (canonical_reread hc).1 x hx
  rw [hn] at hfin
  exact hfin

theorem reread_beq_iff {c : Condition} (hc : c.test.Readable) :
    (c.reread == c) = true ↔ c.Canonical := by
  constructor
  · intro h
    obtain ⟨-, -, ht⟩ := (beq_iff _ _).mp h
    have hi := congrArg Test.ctorIdx ht
    simp only [reread, Test.ctorIdx_mapNumbers] at hi
    exact ⟨hc.1, Test.keepsCategory_of_ctorIdx hc.2 hi⟩
  · intro h
    have hi := reread_beq hc
    rwa [Test.inferred_of_keepsCategory h.2] at hi

theorem reread_reread {c : Condition} (hc : c.test.Readable) : c.reread.reread = c.reread := by
  have hk := Test.inferred_of_keepsCategory (canonical_reread hc).2
  simp only [reread] at hk ⊢
  rw [hk, Test.mapNumbers_idem Double.settled_settled]

theorem refused_iff (c : Condition) :
    (∃ e, Condition.ofJson c.toJson = .error e) ↔ ¬ c.test.Readable := by
  rw [Outcome.exists_error_iff]
  constructor
  · intro h hr
    exact h c.reread ((ofJson_toJson_iff c _).mpr ⟨hr, rfl⟩)
  · intro hr d hd
    exact hr ((ofJson_toJson_iff c d).mp hd).1

end Condition

namespace Group

variable {g : Group}

theorem canonical_reread (hg : ∀ c ∈ g.members.conditions, c.test.Readable) :
    ∀ c ∈ g.reread.members.conditions, c.Canonical := by
  rw [conditions_reread, List.forall_mem_map]
  exact fun c hc => Condition.canonical_reread (hg c hc)

theorem reread_reread (hg : ∀ c ∈ g.members.conditions, c.test.Readable) :
    g.reread.reread = g.reread := by
  have hself : ∀ c ∈ g.reread.members.conditions, c.reread = c := by
    rw [conditions_reread, List.forall_mem_map]
    exact fun c hc => Condition.reread_reread (hg c hc)
  exact congrArg (Group.mk g.connective) (Members.mapConditions_eq_self hself)

/-- A group is refused exactly if a condition in it is. -/
theorem refused_iff (g : Group) :
    (∃ e, Group.ofJson g.toJson = .error e) ↔ ∃ c ∈ g.members.conditions, ¬ c.test.Readable := by
  rw [Outcome.exists_error_iff]
  constructor
  · intro h
    have hn : ¬ ∀ c ∈ g.members.conditions, c.test.Readable :=
      fun hr => h g.reread ((ofJson_toJson_iff g _).mpr ⟨hr, rfl⟩)
    simpa only [Classical.not_forall, exists_prop] using hn
  · rintro ⟨c, hc, hr⟩ h hh
    exact hr (((ofJson_toJson_iff g h).mp hh).1 c hc)

end Group

/-- Exactly the canonical conditions are read back as themselves. Of the others, those with a number
that is not finite and those that order texts are refused, and the rest are read in another category.
What is read is canonical and does not change any more. So it is in a group, condition by condition. -/
theorem Condition.reread_outcome :
    (∀ c : Condition,
      ((∃ d, Condition.ofJson c.toJson = .ok d ∧ (d == c) = true) ↔ c.Canonical) ∧
      ((∃ e, Condition.ofJson c.toJson = .error e) ↔
        (∃ x ∈ c.test.numbers, ¬ x.IsFinite) ∨ c.test.OrdersText) ∧
      ((∀ x ∈ c.test.numbers, x.IsFinite) → ¬ c.test.OrdersText →
        ∃ d, Condition.ofJson c.toJson = .ok d ∧
          (d == (⟨c.field, c.test.inferred⟩ : Condition)) = true) ∧
      ∀ d, Condition.ofJson c.toJson = .ok d →
        d.Canonical ∧ Condition.ofJson d.toJson = .ok d) ∧
    ∀ g : Group,
      ((∃ h, Group.ofJson g.toJson = .ok h ∧ (h == g) = true) ↔
        ∀ c ∈ g.members.conditions, c.Canonical) ∧
      ((∃ e, Group.ofJson g.toJson = .error e) ↔ ∃ c ∈ g.members.conditions,
        (∃ x ∈ c.test.numbers, ¬ x.IsFinite) ∨ c.test.OrdersText) ∧
      ((∀ c ∈ g.members.conditions, (∀ x ∈ c.test.numbers, x.IsFinite) ∧ ¬ c.test.OrdersText) →
        ∃ h, Group.ofJson g.toJson = .ok h ∧ (h == g.inferred) = true) ∧
      ∀ h, Group.ofJson g.toJson = .ok h →
        (∀ c ∈ h.members.conditions, c.Canonical) ∧ Group.ofJson h.toJson = .ok h := by
  constructor
  · intro c
    refine ⟨⟨?_, ?_⟩, ?_, ?_, ?_⟩
    · rintro ⟨d, hd, he⟩
      obtain ⟨hr, rfl⟩ := (ofJson_toJson_iff c d).mp hd
      exact (reread_beq_iff hr).mp he
    · intro hc
      have hr := hc.readable
      exact ⟨c.reread, (ofJson_toJson_iff c _).mpr ⟨hr, rfl⟩, (reread_beq_iff hr).mpr hc⟩
    · rw [refused_iff, Test.not_readable_iff]
    · intro hf ho
      exact ⟨c.reread, (ofJson_toJson_iff c _).mpr ⟨⟨hf, ho⟩, rfl⟩, reread_beq ⟨hf, ho⟩⟩
    · intro d hd
      obtain ⟨hr, rfl⟩ := (ofJson_toJson_iff c d).mp hd
      have hc := canonical_reread hr
      exact ⟨hc, (ofJson_toJson_iff _ _).mpr ⟨hc.readable, reread_reread hr⟩⟩
  · intro g
    refine ⟨⟨?_, ?_⟩, ?_, ?_, ?_⟩
    · rintro ⟨h, hh, he⟩
      obtain ⟨hr, rfl⟩ := (Group.ofJson_toJson_iff g h).mp hh
      have hconditions := (Group.reread_beq_iff g).mp he
      exact fun c hc => (reread_beq_iff (hr c hc)).mp (hconditions c hc)
    · intro hc
      have hr := fun c hm => (hc c hm).readable
      refine ⟨g.reread, (Group.ofJson_toJson_iff g _).mpr ⟨hr, rfl⟩, ?_⟩
      exact (Group.reread_beq_iff g).mpr fun c hm => (reread_beq_iff (hr c hm)).mpr (hc c hm)
    · rw [Group.refused_iff]
      simp only [Test.not_readable_iff]
    · intro hr
      refine ⟨g.reread, (Group.ofJson_toJson_iff g _).mpr ⟨hr, rfl⟩, ?_⟩
      exact (Group.reread_beq_inferred_iff g).mpr fun c hc => reread_beq (hr c hc)
    · intro h hh
      obtain ⟨hr, rfl⟩ := (Group.ofJson_toJson_iff g h).mp hh
      have hc := Group.canonical_reread hr
      exact ⟨hc, (Group.ofJson_toJson_iff _ _).mpr
        ⟨fun c hm => (hc c hm).readable, Group.reread_reread hr⟩⟩

end AccessRules
