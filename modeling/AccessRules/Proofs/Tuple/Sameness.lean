import AccessRules.Proofs.Tuple.RuleText
import AccessRules.Proofs.Tuple.Settled

/-! Equality of groups: the same trees up to the sign of zeros, and without NaN. Equal groups are
written alike and have the same rule text. -/
namespace AccessRules

theorem Double.settled_eq_nan_iff (x : Double) : x.settled = .nan ↔ x = .nan := by
  cases x <;> simp [settled]

namespace Condition

/-- The same condition; every zero in it is positive. -/
def settled (c : Condition) : Condition := ⟨c.field, c.test.mapNumbers .settled⟩

/-- Every number in the condition equals itself. -/
def NanFree (c : Condition) : Prop := ∀ x ∈ c.test.numbers, x ≠ .nan

theorem nanFree_settled_iff (c : Condition) : c.settled.NanFree ↔ c.NanFree := by
  simp [NanFree, settled, Double.settled_eq_nan_iff]

theorem beq_iff_settled (c d : Condition) :
    (c == d) = true ↔ c.NanFree ∧ c.settled = d.settled := by
  have hs : c.settled = d.settled ↔
      c.field = d.field ∧ c.test.mapNumbers .settled = d.test.mapNumbers .settled := by
    unfold settled
    rw [Condition.mk.injEq]
  rw [beq_iff, hs, NanFree]
  exact and_left_comm

theorem toJson_settled (c : Condition) : c.settled.toJson = c.toJson := by
  obtain ⟨f, t⟩ := c
  have ht := Test.tail_settled t
  cases t with
  | isTrue => rfl
  | _ => exact congrArg (fun tail => Json.array (f.toJson :: tail)) ht

theorem renderable_settled_iff (c : Condition) : c.settled.Renderable ↔ c.Renderable := by
  have hf : c.settled.test.HasForm ↔ c.test.HasForm := Test.hasForm_mapNumbers _ _
  unfold Renderable
  rw [hf]
  simp [settled]

theorem rule_settled_eq_ok_iff (c : Condition) (s : String) :
    c.settled.rule = .ok s ↔ c.rule = .ok s := by
  have ht : c.settled.text = c.text := Test.text_settled _ _
  rw [rule_eq_ok_iff, rule_eq_ok_iff, renderable_settled_iff, ht]

end Condition

section Trees

mutual

/-- Trees are equal if they have the same shape and equal conditions. -/
theorem Member.beq_iff (m n : Member) :
    m.beq n = true ↔
      (∀ c ∈ m.conditions, c.NanFree) ∧
        m.mapConditions .settled = n.mapConditions .settled := by
  match m, n with
  | .condition c, .condition d =>
    have hc := Condition.beq_iff_settled c d
    simpa [Member.beq, Member.conditions, Member.mapConditions] using hc
  | .group p ms, .group q ns =>
    have hms := Members.beq_iff ms ns
    simp only [Member.beq, Member.conditions, Member.mapConditions, Bool.and_eq_true, beq_iff_eq,
      hms, Member.group.injEq]
    exact and_left_comm
  | .condition c, .group q ns => simp [Member.beq, Member.mapConditions]
  | .group p ms, .condition d => simp [Member.beq, Member.mapConditions]

theorem Members.beq_iff (ms ns : Members) :
    ms.beq ns = true ↔
      (∀ c ∈ ms.conditions, c.NanFree) ∧
        ms.mapConditions .settled = ns.mapConditions .settled := by
  match ms, ns with
  | .last m, .last n =>
    have hm := Member.beq_iff m n
    simpa [Members.beq, Members.conditions, Members.mapConditions] using hm
  | .cons m ms, .cons n ns =>
    have hm := Member.beq_iff m n
    have hms := Members.beq_iff ms ns
    simp only [Members.beq, Members.conditions, Members.mapConditions, Bool.and_eq_true, hm, hms,
      List.forall_mem_append, Members.cons.injEq]
    exact and_and_and_comm
  | .last m, .cons n ns => simp [Members.beq, Members.mapConditions]
  | .cons m ms, .last n => simp [Members.beq, Members.mapConditions]

end

section SameText

variable {f : Condition → Condition}

mutual

/-- A tree has the text that it has with other conditions of the same texts. -/
theorem Member.rule_mapConditions_eq_ok_iff {m : Member}
    (h : ∀ c ∈ m.conditions, ∀ s, (f c).rule = .ok s ↔ c.rule = .ok s) (s : String) :
    (m.mapConditions f).rule = .ok s ↔ m.rule = .ok s := by
  match m with
  | .condition c =>
    rw [Member.mapConditions, Member.rule_condition, Member.rule_condition]
    exact h c List.mem_cons_self s
  | .group connective ms =>
    rw [Member.mapConditions, Member.rule_group, Member.rule_group]
    exact Members.render_mapConditions_eq_ok_iff h connective s

theorem Members.render_mapConditions_eq_ok_iff {ms : Members}
    (h : ∀ c ∈ ms.conditions, ∀ s, (f c).rule = .ok s ↔ c.rule = .ok s)
    (connective : Connective) (s : String) :
    ((ms.mapConditions f).render connective).result = .ok s ↔
      (ms.render connective).result = .ok s := by
  match ms with
  | .last m =>
    have hm := Member.rule_mapConditions_eq_ok_iff h
    rw [Members.mapConditions]
    simp only [Members.render_last_eq_ok_iff, hm]
  | .cons m ms =>
    obtain ⟨h₁, h₂⟩ := List.forall_mem_append.mp h
    have hm := Member.rule_mapConditions_eq_ok_iff h₁
    have hms := Members.render_mapConditions_eq_ok_iff h₂ connective
    rw [Members.mapConditions]
    simp only [Members.render_cons_eq_ok_iff, hm, hms]

end

end SameText

end Trees

namespace Group

/-- The tree of the group with every zero in it positive. -/
def settled (g : Group) : Member := g.toMember.mapConditions .settled

def NanFree (g : Group) : Prop := ∀ c ∈ g.members.conditions, c.NanFree

variable {g h k : Group}

theorem beq_iff (g h : Group) : (g == h) = true ↔ g.NanFree ∧ g.settled = h.settled :=
  Member.beq_iff g.toMember h.toMember

theorem nanFree_iff_of_settled (g : Group) : g.NanFree ↔ ∀ c ∈ g.settled.conditions, c.NanFree := by
  have hc : g.settled.conditions = g.members.conditions.map .settled :=
    Member.conditions_mapConditions .settled g.toMember
  rw [hc, List.forall_mem_map, NanFree]
  simp only [Condition.nanFree_settled_iff]

theorem nanFree_of_settled_eq (hs : g.settled = h.settled) (hg : g.NanFree) : h.NanFree := by
  rw [nanFree_iff_of_settled, ← hs, ← nanFree_iff_of_settled]
  exact hg

theorem beq_symm (hgh : (g == h) = true) : (h == g) = true := by
  obtain ⟨hg, hs⟩ := (beq_iff g h).mp hgh
  exact (beq_iff h g).mpr ⟨nanFree_of_settled_eq hs hg, hs.symm⟩

theorem beq_trans (hgh : (g == h) = true) (hhk : (h == k) = true) : (g == k) = true := by
  obtain ⟨hg, hs⟩ := (beq_iff g h).mp hgh
  obtain ⟨-, ht⟩ := (beq_iff h k).mp hhk
  exact (beq_iff g k).mpr ⟨hg, hs.trans ht⟩

theorem toJson_settled (g : Group) : g.settled.toJson = g.toJson :=
  Member.toJson_mapConditions fun c _ => c.toJson_settled

theorem rule_settled_eq_ok_iff (g : Group) (s : String) :
    g.settled.rule = .ok s ↔ g.rule = .ok s :=
  Member.rule_mapConditions_eq_ok_iff (fun c _ => c.rule_settled_eq_ok_iff) s

/-- Canonical groups that are written alike are equal, since both are read from what is written. -/
theorem beq_of_toJson_eq (hg : ∀ c ∈ g.members.conditions, c.Canonical)
    (hh : ∀ c ∈ h.members.conditions, c.Canonical) (he : g.toJson = h.toJson) :
    (g == h) = true := by
  obtain ⟨a, ha, -, hag⟩ := exists_reread hg
  obtain ⟨b, hb, -, hbh⟩ := exists_reread hh
  have hab : a = b := by
    rw [he, hb] at ha
    exact (Except.ok.inj ha).symm
  rw [hab] at hag
  exact beq_trans (beq_symm hag) hbh

end Group

/-- Equality is symmetric and transitive, and a group equals itself unless NaN is in it. Equal groups
are written alike and have the same rule text. Groups that were read are equal exactly if they are
written alike. -/
theorem Group.beq_laws :
    (∀ g h : Group, (g == h) = true → (h == g) = true) ∧
    (∀ g h k : Group, (g == h) = true → (h == k) = true → (g == k) = true) ∧
    (∀ g : Group, (g == g) = true ↔
      ∀ c ∈ g.members.conditions, ∀ x ∈ c.test.numbers, x ≠ .nan) ∧
    (∀ g h : Group, (g == h) = true →
      g.toJson = h.toJson ∧ ∀ s, g.rule = .ok s ↔ h.rule = .ok s) ∧
    (∀ (v w : Json) (g h : Group), Group.ofJson v = .ok g → Group.ofJson w = .ok h →
      ((g == h) = true ↔ g.toJson = h.toJson)) := by
  have hjson {g h : Group} (hgh : (g == h) = true) : g.toJson = h.toJson := by
    obtain ⟨-, hs⟩ := (beq_iff g h).mp hgh
    rw [← g.toJson_settled, ← h.toJson_settled, hs]
  refine ⟨fun g h => beq_symm, fun g h k => beq_trans, ?_, ?_, ?_⟩
  · intro g
    rw [beq_iff]
    exact and_iff_left rfl
  · intro g h hgh
    refine ⟨hjson hgh, ?_⟩
    intro s
    obtain ⟨-, hs⟩ := (beq_iff g h).mp hgh
    rw [← g.rule_settled_eq_ok_iff, ← h.rule_settled_eq_ok_iff, hs]
  · intro v w g h hg hh
    have hcg := Member.TupleForm.canonical ((Group.ofJson_eq_ok_iff v g).mp hg)
    have hch := Member.TupleForm.canonical ((Group.ofJson_eq_ok_iff w h).mp hh)
    exact ⟨hjson, beq_of_toJson_eq hcg hch⟩

/-- The two zeros are read as equal groups, which are written alike and have the same text. -/
theorem Group.beq_laws_signed_zero :
    let tuple (n : Json.Number) : Json := .object [("conditions", .array [.array
      [.array [.string "field", .array [.string "a"]], .string "==", .number n]]),
      ("operation", .string "&&")]
    let group (x : Double) : Group :=
      ⟨.and, .last (.condition ⟨.here ⟨[.literal "a"], by decide⟩, .compareNumber .eq x⟩)⟩
    Group.ofJson (tuple (.double ⟨true, .zero⟩)) = .ok (group (.finite ⟨true, .zero⟩)) ∧
      Group.ofJson (tuple (.double ⟨false, .zero⟩)) = .ok (group (.finite ⟨false, .zero⟩)) ∧
      (group (.finite ⟨true, .zero⟩)).toJson = (group (.finite ⟨false, .zero⟩)).toJson ∧
      ∀ s, (group (.finite ⟨true, .zero⟩)).rule = .ok s ↔
        (group (.finite ⟨false, .zero⟩)).rule = .ok s := by
  intro tuple group
  have hg : Group.ofJson (tuple (.double ⟨true, .zero⟩)) = .ok (group (.finite ⟨true, .zero⟩)) := by
    rfl
  have hh : Group.ofJson (tuple (.double ⟨false, .zero⟩)) =
      .ok (group (.finite ⟨false, .zero⟩)) := by
    rfl
  have he : (group (.finite ⟨true, .zero⟩) == group (.finite ⟨false, .zero⟩)) = true := by
    rfl
  exact ⟨hg, hh, (beq_laws.2.2.2.2 _ _ _ _ hg hh).mp he, (beq_laws.2.2.2.1 _ _ he).2⟩

end AccessRules
