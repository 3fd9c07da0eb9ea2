import AccessRules.Proofs.Rule.Text
import AccessRules.Proofs.Tuple.Settled
import AccessRules.Proofs.Tuple.ThroughText

/-! Why a tree has no rule text, and why a tree that was read from text has none. -/
namespace AccessRules

mutual

/-- A tree is refused for the first of its conditions that is refused. -/
theorem Member.error?_rule (m : Member) :
    Outcome.error? m.rule = m.conditions.findSome? fun c => Outcome.error? c.rule := by
  match m with
  | .condition c =>
    rw [Member.rule_condition, Member.conditions, List.findSome?_singleton]
  | .group connective ms =>
    rw [Member.rule_group, Members.error?_render connective ms, Member.conditions]

theorem Members.error?_render (connective : Connective) (ms : Members) :
    Outcome.error? (ms.render connective).result =
      ms.conditions.findSome? fun c => Outcome.error? c.rule := by
  match ms with
  | .last m =>
    have hm := Member.error?_rule m
    rw [Members.conditions, ← hm]
    simp only [Members.render, Traced.result_bind, Traced.result_pure, Member.rule]
    cases m.render.result <;> rfl
  | .cons m ms =>
    have hm := Member.error?_rule m
    have hms := Members.error?_render connective ms
    rw [Members.conditions, List.findSome?_append, ← hm, ← hms]
    simp only [Members.render, Traced.result_bind, Traced.result_pure, Member.rule]
    cases m.render.result with
    | error e => rfl
    | ok s => cases (ms.render connective).result <;> rfl

end

section UpdateTargets

/-- The path of a field that is still to be written. -/
def Field.updateTargets : Field → List Path
  | .updated path => [path]
  | _ => []

def Target.updateTargets : Target → List Path
  | .field f => f.updateTargets
  | .point .. => []

def Test.updateTargets : Test → List Path
  | .distance target _ _ => target.updateTargets
  | _ => []

/-- The paths of the fields that are still to be written: the field of the condition, and then the
field that a distance is measured to. -/
def Condition.updateTargets (c : Condition) : List Path :=
  c.field.updateTargets ++ c.test.updateTargets

theorem Field.isStored_iff (f : Field) : f.IsStored ↔ f.updateTargets = [] := by
  cases f <;> simp [IsStored, updateTargets]

theorem Field.exists_of_updateTargets_ne_nil {f : Field} (h : f.updateTargets ≠ []) :
    ∃ path, f = .updated path := by
  cases f with
  | updated path => exact ⟨path, rfl⟩
  | _ => exact absurd rfl h

theorem Test.exists_of_updateTargets_ne_nil {t : Test} (h : t.updateTargets ≠ []) :
    ∃ path op x, t = .distance (.field (.updated path)) op x := by
  cases t with
  | distance target op x =>
    cases target with
    | point y z => exact absurd rfl h
    | field f =>
      obtain ⟨path, rfl⟩ := Field.exists_of_updateTargets_ne_nil h
      exact ⟨path, op, x, rfl⟩
  | _ => exact absurd rfl h

theorem Target.isStored_iff (t : Target) : t.IsStored ↔ t.updateTargets = [] := by
  cases t with
  | point x y => simp [IsStored, updateTargets]
  | field f => exact f.isStored_iff

/-- The own field of a condition is rendered first. -/
theorem Condition.rule_of_updated (path : Path) (t : Test) :
    (⟨.updated path, t⟩ : Condition).rule = .error (.updateTarget path) := by
  simp [Condition.rule, Condition.render, Field.rule]

/-- The field that a distance is measured to is rendered before the distance. -/
theorem Condition.rule_of_updated_target {f : Field} (hf : f.IsStored) (path : Path)
    (op : Comparison) (x : Double) :
    (⟨f, .distance (.field (.updated path)) op x⟩ : Condition).rule =
      .error (.updateTarget path) := by
  have hr := (f.rule_eq_ok_iff f.text).mpr ⟨hf, rfl⟩
  rw [Condition.rule, Condition.render, Traced.result_reporting, Traced.result_bind,
    Field.result_render, hr]
  rfl

theorem Condition.Canonical.renderable_iff {c : Condition} (hc : c.Canonical) :
    c.Renderable ↔ c.updateTargets = [] := by
  obtain ⟨hn, hk⟩ := hc
  have ht : c.test.HasForm ↔ c.test.updateTargets = [] := by
    obtain ⟨f, t⟩ := c
    cases t with
    | compareString op value => exact iff_of_true hk rfl
    | distance target op x => exact target.isStored_iff
    | _ => exact iff_of_true trivial rfl
  rw [Renderable, updateTargets, List.append_eq_nil_iff, c.field.isStored_iff, ht,
    and_iff_right hn]

/-- A canonical condition is refused only for a field that is still to be written. -/
theorem Condition.Canonical.error?_rule {c : Condition} (hc : c.Canonical) :
    Outcome.error? c.rule = c.updateTargets.head?.map .updateTarget := by
  by_cases hr : c.Renderable
  · rw [(c.rule_eq_ok_iff c.text).mpr ⟨hr, rfl⟩, hc.renderable_iff.mp hr]
    rfl
  · rw [hc.renderable_iff] at hr
    obtain ⟨f, t⟩ := c
    by_cases hf : f.updateTargets = []
    · -- Only the field that a distance is measured to is left to be refused.
      obtain ⟨path, op, x, rfl⟩ : ∃ path op x, t = .distance (.field (.updated path)) op x := by
        rw [updateTargets, hf, List.nil_append] at hr
        exact Test.exists_of_updateTargets_ne_nil hr
      rw [rule_of_updated_target (f.isStored_iff.mpr hf), updateTargets, hf]
      rfl
    · obtain ⟨path, rfl⟩ := Field.exists_of_updateTargets_ne_nil hf
      rw [rule_of_updated]
      rfl

/-- A tree of canonical conditions is refused for the first field that is still to be written. -/
theorem Member.error?_rule_of_canonical {m : Member} (hm : ∀ c ∈ m.conditions, c.Canonical) :
    Outcome.error? m.rule =
      (m.conditions.flatMap Condition.updateTargets).head?.map .updateTarget := by
  rw [Member.error?_rule]
  generalize m.conditions = cs at hm
  induction cs with
  | nil => rfl
  | cons c cs ih =>
    obtain ⟨hc, hcs⟩ := List.forall_mem_cons.mp hm
    rw [List.findSome?_cons, hc.error?_rule, ih hcs, List.flatMap_cons, List.head?_append]
    cases c.updateTargets <;> rfl

end UpdateTargets

/-- The outcome of rendering a tree of canonical conditions. -/
theorem Member.rule_of_canonical {m : Member} (hm : ∀ c ∈ m.conditions, c.Canonical) :
    ((∃ s, m.rule = .ok s) ↔ ∀ c ∈ m.conditions, c.updateTargets = []) ∧
    ∀ e, m.rule = .error e →
      ∃ path, (m.conditions.flatMap Condition.updateTargets).head? = some path ∧
        e = .updateTarget path := by
  have hr := Member.error?_rule_of_canonical hm
  constructor
  · rw [← Outcome.error?_eq_none_iff, hr, Option.map_eq_none_iff, List.head?_eq_none_iff,
      List.flatMap_eq_nil_iff]
  · intro e he
    rw [Outcome.error?_eq_some_iff.mpr he] at hr
    obtain ⟨path, hp, rfl⟩ := Option.map_eq_some_iff.mp hr.symm
    exact ⟨path, hp, rfl⟩

/-- The refusal of a field that is still to be written. It names the path of the field: the segments
between slashes, with parameters in braces. -/
structure Malformed.RefusesUpdate (e : Malformed) (path : Path) : Prop where
  cause : e = .updateTarget path
  payload : e.payload = "update-target field '" ++ "/".intercalate (path.segments.map fun
      | .literal name => name
      | .param name => "\x7b" ++ name ++ "\x7d") ++ "' has no rule-language rendering"

theorem Malformed.refusesUpdate_updateTarget (path : Path) :
    (Malformed.updateTarget path).RefusesUpdate path where
  cause := rfl
  payload := by
    have hshown : path.segments.map Segment.display = path.segments.map fun
        | .literal name => name
        | .param name => "\x7b" ++ name ++ "\x7d" := by
      apply List.map_congr_left
      intro s _
      cases s <;> rfl
    rw [← hshown]
    rfl

/-- What is read from text has rule text unless a field in it is still to be written, and is then
refused for the first such field. -/
theorem rule_of_parse :
    (∀ (text : String) (c : Condition), Condition.parse text = .ok c →
      ((∃ s, c.rule = .ok s) ↔ c.updateTargets = []) ∧
      ∀ e, c.rule = .error e → ∃ path, c.updateTargets.head? = some path ∧ e.RefusesUpdate path) ∧
    (∀ (text : String) (g : Group), Group.parse text = .ok g →
      ((∃ s, g.rule = .ok s) ↔ ∀ c ∈ g.members.conditions, c.updateTargets = []) ∧
      ∀ e, g.rule = .error e →
        ∃ path, (g.members.conditions.flatMap Condition.updateTargets).head? = some path ∧
          e.RefusesUpdate path) := by
  constructor
  · intro text c h
    obtain ⟨v, -, hv⟩ := Outcome.bind_eq_ok_iff.mp h
    have hc := ((Condition.ofJson_eq_ok_iff v c).mp hv).canonical
    obtain ⟨hok, herr⟩ := Member.rule_of_canonical (m := .condition c)
      (fun d hd => List.mem_singleton.mp hd ▸ hc)
    rw [Member.rule_condition] at hok herr
    simp only [Member.conditions, List.forall_mem_singleton, List.flatMap_singleton] at hok herr
    refine ⟨hok, ?_⟩
    intro e he
    obtain ⟨path, hp, rfl⟩ := herr e he
    exact ⟨path, hp, Malformed.refusesUpdate_updateTarget path⟩
  · intro text g h
    obtain ⟨v, -, hv⟩ := Outcome.bind_eq_ok_iff.mp h
    have hg := Member.TupleForm.canonical ((Group.ofJson_eq_ok_iff v g).mp hv)
    obtain ⟨hok, herr⟩ := Member.rule_of_canonical hg
    refine ⟨hok, ?_⟩
    intro e he
    obtain ⟨path, hp, rfl⟩ := herr e he
    exact ⟨path, hp, Malformed.refusesUpdate_updateTarget path⟩

/-- A field in a nested group comes before the fields of the members after it. -/
theorem rule_of_parse_nested :
    ∃ (text : String) (g : Group) (e : Malformed), Group.parse text = .ok g ∧ g.rule = .error e ∧
      e.payload = "update-target field 'a/\x7bb\x7d' has no rule-language rendering" := by
  let g : Group := ⟨.or,
    .cons (.group .and (.last (.condition
        ⟨.updated ⟨[.literal "a", .param "b"], by decide⟩, .isInteger⟩)))
      (.last (.condition ⟨.updated ⟨[.literal "c"], by decide⟩, .isTrue⟩))⟩
  have hnum : ∀ c ∈ g.members.conditions, c.test.numbers = [] := by decide
  have hp : Group.parse g.toJson.text = .ok g := by
    rw [Group.parse_text_of_le (Member.printable_toJson ?_) (by decide)]
    · rfl
    · intro c hc
      rw [hnum c hc]
      simp
  obtain ⟨hok, herr⟩ := rule_of_parse.2 _ g hp
  cases hr : g.rule with
  | ok s => exact absurd (hok.mp ⟨s, hr⟩) (by decide)
  | error e =>
    obtain ⟨path, hpath, hrefused⟩ := herr e hr
    cases hpath
    refine ⟨_, g, e, hp, hr, hrefused.payload.trans ?_⟩
    decide

end AccessRules
