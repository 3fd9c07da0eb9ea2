import AccessRules.Malformed

/-! The members of a group as a list. -/
namespace AccessRules

namespace Members

theorem ofList?_toList (ms : Members) : ofList? ms.toList = some ms := by
  match ms with
  | .last m => rfl
  | .cons m ms =>
    have ih := ofList?_toList ms
    cases hl : ms.toList with
    | nil => exact (ms.toList_ne_nil hl).elim
    | cons n ns =>
      rw [hl] at ih
      have hgo : ofList?.go n ns = ms := Option.some.inj ih
      rw [toList, hl, ofList?, ofList?.go, hgo]

theorem toList_go (m : Member) (list : List Member) : (ofList?.go m list).toList = m :: list := by
  induction list generalizing m with
  | nil => rfl
  | cons n ns ih => rw [ofList?.go, toList, ih]

theorem ofList?_eq_some_iff (list : List Member) (ms : Members) :
    ofList? list = some ms ↔ list = ms.toList := by
  constructor
  · intro h
    cases list with
    | nil => cases h
    | cons m list =>
      obtain rfl := Option.some.inj h
      exact (toList_go m list).symm
  · rintro rfl
    exact ofList?_toList ms

theorem toList_inj {ms ns : Members} (h : ms.toList = ns.toList) : ms = ns := by
  have hs := (ofList?_eq_some_iff ms.toList ns).mpr h
  rw [ofList?_toList] at hs
  exact Option.some.inj hs

end Members

theorem Group.ofList_eq_ok_iff (connective : Connective) (list : List Member) (g : Group) :
    Group.ofList connective list = .ok g ↔ g.connective = connective ∧ list = g.members.toList := by
  unfold Group.ofList
  rw [← Members.ofList?_eq_some_iff]
  cases Members.ofList? list with
  | none => simp
  | some ms =>
    obtain ⟨q, ns⟩ := g
    simp [eq_comm]

end AccessRules
