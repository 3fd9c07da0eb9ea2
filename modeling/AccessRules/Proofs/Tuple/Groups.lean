import AccessRules.Proofs.Members
import AccessRules.Proofs.Names
import AccessRules.Proofs.Tuple.Reread

/-! Reading a group back from its own tuple form. -/
namespace AccessRules

theorem Condition.toJson_eq_array (c : Condition) : ∃ items, c.toJson = .array items := by
  obtain ⟨f, t⟩ := c
  cases t with
  | isTrue => cases f <;> exact ⟨_, rfl⟩
  | _ => exact ⟨_, rfl⟩

theorem Member.ofJson_condition (c : Condition) :
    Member.ofJson c.toJson = Member.condition <$> Condition.ofJson c.toJson := by
  obtain ⟨items, hi⟩ := c.toJson_eq_array
  rw [hi, Member.ofJson]
  simp

theorem Group.ofJson_toJson (g : Group) :
    Group.ofJson g.toJson = membersOfItems g.members.toJsons >>= Group.ofList g.connective := by
  simp [Group.toJson, Group.toMember, Member.toJson, Group.ofJson, Group.ofEntries, unknownKey?,
    membersOfEntries, List.lookup_cons]

theorem Member.ofJson_group (g : Group) :
    Member.ofJson g.toJson = Group.toMember <$> Group.ofJson g.toJson := by
  simp [Group.toJson, Group.toMember, Member.toJson, Group.ofJson, Member.ofJson]

mutual

def Member.mapConditions (f : Condition → Condition) : Member → Member
  | .condition c => .condition (f c)
  | .group connective ms => .group connective (ms.mapConditions f)

def Members.mapConditions (f : Condition → Condition) : Members → Members
  | .last m => .last (m.mapConditions f)
  | .cons m ms => .cons (m.mapConditions f) (ms.mapConditions f)

end

def Group.reread (g : Group) : Group := ⟨g.connective, g.members.mapConditions .reread⟩

theorem Group.ofJson_toJson_iff_of_members {g : Group} {P : Prop}
    (hms : ∀ list, membersOfItems g.members.toJsons = .ok list ↔
      P ∧ (g.members.mapConditions .reread).toList = list) (h : Group) :
    Group.ofJson g.toJson = .ok h ↔ P ∧ g.reread = h := by
  rw [Group.ofJson_toJson, Outcome.bind_eq_ok_iff]
  simp only [hms, Group.ofList_eq_ok_iff]
  constructor
  · rintro ⟨list, ⟨hp, rfl⟩, hc, hl⟩
    obtain ⟨connective, ns⟩ := h
    obtain rfl : connective = g.connective := hc
    obtain rfl := Members.toList_inj hl
    exact ⟨hp, rfl⟩
  · rintro ⟨hp, rfl⟩
    exact ⟨_, ⟨hp, rfl⟩, rfl, rfl⟩

mutual

/-- A tree is read exactly if each of its conditions is, and each of them becomes what it becomes on
its own. -/
theorem Member.ofJson_toJson_iff (m n : Member) :
    Member.ofJson m.toJson = .ok n ↔
      (∀ c ∈ m.conditions, c.test.Readable) ∧ m.mapConditions .reread = n := by
  match m with
  | .condition c =>
    rw [Member.toJson, Member.ofJson_condition, Member.conditions, List.forall_mem_singleton]
    exact Outcome.map_eq_ok_iff_of (Condition.ofJson_toJson_iff c) .condition n
  | .group connective ms =>
    have hms := Members.ofItems_toJsons_iff ms
    have hg := Group.ofJson_toJson_iff_of_members (g := ⟨connective, ms⟩) hms
    change Member.ofJson (Group.toJson ⟨connective, ms⟩) = .ok n ↔ _
    rw [Member.ofJson_group]
    exact Outcome.map_eq_ok_iff_of hg Group.toMember n

theorem Members.ofItems_toJsons_iff (ms : Members) (list : List Member) :
    membersOfItems ms.toJsons = .ok list ↔
      (∀ c ∈ ms.conditions, c.test.Readable) ∧ (ms.mapConditions .reread).toList = list := by
  match ms with
  | .last m =>
    have hm := Member.ofJson_toJson_iff m
    simp [Members.toJsons, membersOfItems, Outcome.bind_eq_ok_iff, hm, Members.conditions,
      Members.mapConditions, Members.toList, and_assoc]
  | .cons m ms =>
    have hm := Member.ofJson_toJson_iff m
    have hms := Members.ofItems_toJsons_iff ms
    simp only [Members.toJsons, membersOfItems, Outcome.bind_eq_ok_iff, hm, hms, Members.conditions,
      List.forall_mem_append, Members.mapConditions, Members.toList]
    constructor
    · rintro ⟨n, ⟨h₁, rfl⟩, ns, ⟨h₂, rfl⟩, hl⟩
      exact ⟨⟨h₁, h₂⟩, Except.ok.inj hl⟩
    · rintro ⟨⟨h₁, h₂⟩, rfl⟩
      exact ⟨_, ⟨h₁, rfl⟩, _, ⟨h₂, rfl⟩, rfl⟩

end

theorem Group.ofJson_toJson_iff (g h : Group) :
    Group.ofJson g.toJson = .ok h ↔
      (∀ c ∈ g.members.conditions, c.test.Readable) ∧ g.reread = h :=
  Group.ofJson_toJson_iff_of_members (Members.ofItems_toJsons_iff g.members) h

mutual

theorem Member.conditions_mapConditions (f : Condition → Condition) (m : Member) :
    (m.mapConditions f).conditions = m.conditions.map f := by
  match m with
  | .condition c => rfl
  | .group connective ms =>
    rw [Member.mapConditions, Member.conditions, Members.conditions_mapConditions f ms,
      Member.conditions]

theorem Members.conditions_mapConditions (f : Condition → Condition) (ms : Members) :
    (ms.mapConditions f).conditions = ms.conditions.map f := by
  match ms with
  | .last m =>
    rw [Members.mapConditions, Members.conditions, Member.conditions_mapConditions f m,
      Members.conditions]
  | .cons m ms =>
    rw [Members.mapConditions, Members.conditions, Member.conditions_mapConditions f m,
      Members.conditions_mapConditions f ms, Members.conditions, List.map_append]

end

section MapConditions

variable {f : Condition → Condition}

mutual

theorem Member.toJson_mapConditions {m : Member} (h : ∀ c ∈ m.conditions, (f c).toJson = c.toJson) :
    (m.mapConditions f).toJson = m.toJson := by
  match m with
  | .condition c => exact h c (by simp [Member.conditions])
  | .group connective ms =>
    rw [Member.mapConditions, Member.toJson, Members.toJsons_mapConditions h, ← Member.toJson]

theorem Members.toJsons_mapConditions {ms : Members}
    (h : ∀ c ∈ ms.conditions, (f c).toJson = c.toJson) :
    (ms.mapConditions f).toJsons = ms.toJsons := by
  match ms with
  | .last m => rw [Members.mapConditions, Members.toJsons, Member.toJson_mapConditions h, Members.toJsons]
  | .cons m ms =>
    obtain ⟨h₁, h₂⟩ := List.forall_mem_append.mp h
    rw [Members.mapConditions, Members.toJsons, Member.toJson_mapConditions h₁,
      Members.toJsons_mapConditions h₂, Members.toJsons]

end

mutual

theorem Member.mapConditions_eq_self {m : Member} (h : ∀ c ∈ m.conditions, f c = c) :
    m.mapConditions f = m := by
  match m with
  | .condition c => exact congrArg Member.condition (h c List.mem_cons_self)
  | .group connective ms => rw [Member.mapConditions, Members.mapConditions_eq_self h]

theorem Members.mapConditions_eq_self {ms : Members} (h : ∀ c ∈ ms.conditions, f c = c) :
    ms.mapConditions f = ms := by
  match ms with
  | .last m => rw [Members.mapConditions, Member.mapConditions_eq_self h]
  | .cons m ms =>
    obtain ⟨h₁, h₂⟩ := List.forall_mem_append.mp h
    rw [Members.mapConditions, Member.mapConditions_eq_self h₁, Members.mapConditions_eq_self h₂]

end

mutual

/-- Trees of one shape are compared condition by condition. -/
theorem Member.mapConditions_beq_iff (f g : Condition → Condition) (m : Member) :
    (m.mapConditions f).beq (m.mapConditions g) = true ↔
      ∀ c ∈ m.conditions, (f c == g c) = true := by
  match m with
  | .condition c => rw [Member.conditions, List.forall_mem_singleton]; rfl
  | .group connective ms =>
    have hms := Members.mapConditions_beq_iff f g ms
    simp only [Member.mapConditions, Member.beq, beq_self_eq_true, Bool.true_and, hms,
      Member.conditions]

theorem Members.mapConditions_beq_iff (f g : Condition → Condition) (ms : Members) :
    (ms.mapConditions f).beq (ms.mapConditions g) = true ↔
      ∀ c ∈ ms.conditions, (f c == g c) = true := by
  match ms with
  | .last m => exact Member.mapConditions_beq_iff f g m
  | .cons m ms =>
    have hm := Member.mapConditions_beq_iff f g m
    have hms := Members.mapConditions_beq_iff f g ms
    simp only [Members.mapConditions, Members.beq, Bool.and_eq_true, hm, hms, Members.conditions,
      List.forall_mem_append]

end

end MapConditions

/-- Every condition of the tree is replaced by the condition of its tuple in the category that this is
read in. -/
def Group.inferred (g : Group) : Group :=
  ⟨g.connective, g.members.mapConditions fun c => ⟨c.field, c.test.inferred⟩⟩

theorem Group.reread_beq_iff (g : Group) :
    (g.reread == g) = true ↔ ∀ c ∈ g.members.conditions, (c.reread == c) = true := by
  have hself : g.members.mapConditions id = g.members := Members.mapConditions_eq_self fun _ _ => rfl
  have h := Member.mapConditions_beq_iff .reread id g.toMember
  rw [Group.toMember, Member.mapConditions, Member.mapConditions, hself] at h
  exact h

theorem Group.reread_beq_inferred_iff (g : Group) :
    (g.reread == g.inferred) = true ↔
      ∀ c ∈ g.members.conditions, (c.reread == (⟨c.field, c.test.inferred⟩ : Condition)) = true :=
  Member.mapConditions_beq_iff .reread _ g.toMember

theorem Group.conditions_reread (g : Group) :
    g.reread.members.conditions = g.members.conditions.map .reread :=
  Members.conditions_mapConditions .reread g.members

end AccessRules
