import AccessRules.Proofs.Rule.Text
import AccessRules.Proofs.Tuple.Groups

/-! Rule text survives being written in tuple form and read back. -/
namespace AccessRules

namespace Test

theorem text_inferred (field : String) (t : Test) : t.inferred.text field = t.text field := by
  unfold inferred
  split <;> rfl

theorem hasForm_inferred {t : Test} (ht : t.HasForm) : t.inferred.HasForm := by
  unfold inferred
  split
  case h_5 => exact ht
  all_goals trivial

theorem hasForm_mapNumbers (f : Double → Double) (t : Test) :
    (t.mapNumbers f).HasForm ↔ t.HasForm := by
  cases t with
  | compareString op value => cases value <;> rfl
  | distance target op x => cases target <;> rfl
  | _ => rfl

theorem not_ordersText_of_hasForm {t : Test} (ht : t.HasForm) : ¬ t.OrdersText := by
  cases t with
  | compareString op value =>
    rintro ⟨ho, -⟩
    rw [ht.1] at ho
    cases ho
  | _ => exact id

end Test

namespace Condition

theorem Renderable.readable {c : Condition} (hc : c.Renderable) : c.test.Readable :=
  ⟨hc.2.1, Test.not_ordersText_of_hasForm hc.2.2⟩

theorem Renderable.reread {c : Condition} (hc : c.Renderable) : c.reread.Renderable := by
  obtain ⟨hs, hf, hh⟩ := hc
  refine ⟨hs, ?_, (Test.hasForm_mapNumbers _ _).mpr (Test.hasForm_inferred hh)⟩
  simpa [Condition.reread] using hf

theorem text_reread (c : Condition) : c.reread.text = c.text := by
  simp only [text, reread, Test.text_settled, Test.text_inferred]

/-- A condition with rule text is read back as one with the same text. -/
theorem exists_reread_rule {c : Condition} {s : String} (h : c.rule = .ok s) :
    ∃ d, Condition.ofJson c.toJson = .ok d ∧ d.rule = .ok s := by
  obtain ⟨hc, rfl⟩ := (rule_eq_ok_iff c s).mp h
  exact ⟨c.reread, (ofJson_toJson_iff c _).mpr ⟨hc.readable, rfl⟩,
    (rule_eq_ok_iff _ _).mpr ⟨hc.reread, text_reread c⟩⟩

end Condition

mutual

theorem Member.exists_reread_rule {m : Member} {s : String} (h : m.rule = .ok s) :
    ∃ n, Member.ofJson m.toJson = .ok n ∧ n.rule = .ok s := by
  match m with
  | .condition c =>
    rw [Member.rule_condition] at h
    obtain ⟨d, hd, hs⟩ := Condition.exists_reread_rule h
    refine ⟨.condition d, ?_, by rwa [Member.rule_condition]⟩
    rw [Member.toJson, Member.ofJson_condition, hd]
    rfl
  | .group connective ms =>
    rw [Member.rule_group] at h
    obtain ⟨ns, hns, hs⟩ := Members.exists_reread_rule h
    refine ⟨.group connective ns, ?_, by rwa [Member.rule_group]⟩
    have hg := Group.ofJson_toJson ⟨connective, ms⟩
    have hm := Member.ofJson_group ⟨connective, ms⟩
    simp only [hns, Outcome.ok_bind, Group.ofList, Members.ofList?_toList] at hg
    rw [hg] at hm
    exact hm

theorem Members.exists_reread_rule {connective : Connective} {ms : Members} {s : String}
    (h : (ms.render connective).result = .ok s) :
    ∃ ns : Members, membersOfItems ms.toJsons = .ok ns.toList ∧
      (ns.render connective).result = .ok s := by
  match ms with
  | .last m =>
    obtain ⟨t, ht, rfl⟩ := (Members.render_last_eq_ok_iff connective m s).mp h
    obtain ⟨n, hn, hr⟩ := Member.exists_reread_rule ht
    refine ⟨.last n, ?_, (Members.render_last_eq_ok_iff connective n _).mpr ⟨t, hr, rfl⟩⟩
    simp [Members.toJsons, membersOfItems, hn, Members.toList]
  | .cons m ms =>
    obtain ⟨t, u, ht, hu, rfl⟩ := (Members.render_cons_eq_ok_iff connective m ms s).mp h
    obtain ⟨n, hn, hr⟩ := Member.exists_reread_rule ht
    obtain ⟨ns, hns, hrs⟩ := Members.exists_reread_rule hu
    refine ⟨.cons n ns, ?_,
      (Members.render_cons_eq_ok_iff connective n ns _).mpr ⟨t, u, hr, hrs, rfl⟩⟩
    simp [Members.toJsons, membersOfItems, hn, hns, Members.toList]

end

/-- Whatever has rule text is read back from its tuple form, and with the same text. -/
theorem reread_rule :
    (∀ (g : Group) (s : String), g.rule = .ok s →
      ∃ h, Group.ofJson g.toJson = .ok h ∧ h.rule = .ok s) ∧
    (∀ (c : Condition) (s : String), c.rule = .ok s →
      ∃ d, Condition.ofJson c.toJson = .ok d ∧ d.rule = .ok s) := by
  constructor
  · intro g s hs
    rw [Group.rule_eq, Group.toMember, Member.rule_group] at hs
    obtain ⟨ns, hns, hr⟩ := Members.exists_reread_rule hs
    refine ⟨⟨g.connective, ns⟩, ?_, ?_⟩
    · rw [Group.ofJson_toJson, hns, Outcome.ok_bind, Group.ofList, Members.ofList?_toList]
    · rw [Group.rule_eq, Group.toMember, Member.rule_group]
      exact hr
  · intro c s hs
    exact Condition.exists_reread_rule hs

/-- A size of a map and an empty choice of strings change category, but not their text. -/
theorem reread_rule_other_category :
    ∃ h, Group.ofJson (Group.toJson ⟨.or,
        .cons (.condition ⟨.here ⟨[.literal "a"], by decide⟩, .mapSize .le (.finite ⟨true, .zero⟩)⟩)
          (.last (.condition ⟨.here ⟨[.param "b"], by decide⟩, .inStrings []⟩))⟩) = .ok h ∧
      h.rule = .ok "(.a.size() <= 0) || ([b] in [])" :=
  reread_rule.1 _ _ (by rfl)

end AccessRules
