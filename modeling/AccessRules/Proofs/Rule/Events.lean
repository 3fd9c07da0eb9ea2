import AccessRules.Load
import AccessRules.Proofs.Names
import AccessRules.Proofs.Rule.Text

/-! What rendering reports. Every subtree reports after the subtrees inside it, and nothing is
reported after a condition that is refused. -/
namespace AccessRules

namespace Traced

variable {α β : Type} {x : Traced α}

theorem events_bind_of_ok (f : α → Traced β) {a : α} (h : x.result = .ok a) :
    (x >>= f).events = x.events ++ (f a).events := by
  change (Traced.bind x f).events = _
  unfold Traced.bind
  simp only [h]

theorem events_bind_of_error (f : α → Traced β) {e : Malformed} (h : x.result = .error e) :
    (x >>= f).events = x.events := by
  change (Traced.bind x f).events = _
  unfold Traced.bind
  simp only [h]

/-- What reports nothing leaves the events as they are. -/
theorem events_bind_of_silent {f : α → Traced β} (h : ∀ a, (f a).events = []) :
    (x >>= f).events = x.events := by
  cases hx : x.result with
  | error e => exact events_bind_of_error f hx
  | ok a => rw [events_bind_of_ok f hx, h, List.append_nil]

end Traced

section Conditions

open Traced

instance : DecidablePred Field.IsStored
  | .here _ => isTrue trivial
  | .elsewhere .. => isTrue trivial
  | .updated _ => isFalse id

/-- The field that a distance is measured to. -/
def Test.targetFields : Test → List Field
  | .distance (.field f) _ _ => [f]
  | _ => []

namespace Condition

/-- The fields that are rendered: the field of the condition and the field that a distance is measured
to, up to the first of them that is still to be written. -/
def renderedFields (c : Condition) : List Field :=
  (c.field :: c.test.targetFields).takeWhile fun f => decide f.IsStored

/-- The last event of a condition. -/
def outcome (c : Condition) : Event :=
  match c.rule with
  | .ok s => .condition c.category s
  | .error e => .refused c.category e

/-- What a condition reports: each of its rendered fields, and then its text or why it has none. -/
def events (c : Condition) : List Event :=
  c.renderedFields.map (fun f => .field f.text) ++ [c.outcome]

end Condition

/-- A field reports its text, if it has one. -/
theorem Field.events_render (f : Field) :
    f.render.events = ([f].takeWhile fun f => decide f.IsStored).map (fun f => .field f.text) := by
  cases f <;> rfl

theorem Target.events_render (t : Target) (op : Comparison) (x : Double) :
    t.render.events =
      ((Test.distance t op x).targetFields.takeWhile fun f => decide f.IsStored).map
        (fun f => .field f.text) := by
  cases t with
  | point y z =>
    unfold Target.render
    rw [events_bind_of_silent]
    · rfl
    · intro s
      rw [events_bind_of_silent fun _ => rfl]
      rfl
  | field f => exact f.events_render

/-- Of a test only the field that a distance is measured to is reported. -/
theorem Test.events_render (field : String) (t : Test) :
    (t.render field).events =
      (t.targetFields.takeWhile fun f => decide f.IsStored).map (fun f => .field f.text) := by
  cases t with
  | distance target op x =>
    rw [← Target.events_render, Test.render]
    apply events_bind_of_silent
    intro s
    rw [events_bind_of_silent fun _ => rfl]
    rfl
  | compareNumber op x | mapGet key op x | listGet i op x =>
    rw [Test.render, events_bind_of_silent fun _ => rfl]
    rfl
  | _ => rfl

theorem Traced.events_reporting {α : Type} (x : Traced α) (ok : α → Event)
    (refused : Malformed → Event) :
    (x.reporting ok refused).events =
      x.events ++ [match x.result with
        | .ok a => ok a
        | .error e => refused e] := by
  unfold reporting
  cases x.result <;> rfl

theorem Condition.events_render (c : Condition) : c.render.events = c.events := by
  have hr : (do c.test.render (← c.field.render) : Traced String).result = c.rule :=
    (Traced.result_reporting _ _ _).symm
  rw [Condition.render, Traced.events_reporting, hr, Condition.events, Condition.outcome]
  congr 1
  · -- The test is rendered only behind a field that has text.
    obtain ⟨f, t⟩ := c
    by_cases hf : f.IsStored
    · have ho : f.render.result = .ok f.text := by
        rw [Field.result_render]
        exact (f.rule_eq_ok_iff f.text).mpr ⟨hf, rfl⟩
      rw [events_bind_of_ok _ ho, Field.events_render, Test.events_render]
      simp [renderedFields, hf]
    · cases f with
      | updated path => rfl
      | _ => exact (hf trivial).elim
  · cases c.rule <;> rfl

theorem Condition.outcome_of_ok {c : Condition} {s : String} (h : c.rule = .ok s) :
    c.outcome = .condition c.category s := by
  rw [outcome, h]

theorem Condition.outcome_of_error {c : Condition} {e : Malformed} (h : c.rule = .error e) :
    c.outcome = .refused c.category e := by
  rw [outcome, h]

end Conditions

section Trees

open Traced

mutual

/-- The subtrees of a tree, each of them after those inside it. -/
def Member.subtrees : Member → List Member
  | .condition c => [.condition c]
  | .group connective ms => ms.subtrees ++ [.group connective ms]

def Members.subtrees : Members → List Member
  | .last m => m.subtrees
  | .cons m ms => m.subtrees ++ ms.subtrees

end

/-- What a subtree itself reports. A group reports nothing if it has no text. -/
def Member.report : Member → List Event
  | .condition c => c.events
  | .group connective ms =>
    match (Member.group connective ms).rule with
    | .ok s => [.group connective ms.length s]
    | .error _ => []

/-- The events of rendering the trees whose subtrees are given, with the outcome: everything is
reported, or everything up to the first condition that is refused. -/
structure Reported (subtrees : List Member) (events : List Event) (result : Except Malformed String) :
    Prop where
  complete : ∀ s, result = .ok s →
    (∀ m ∈ subtrees, ∃ t, m.rule = .ok t) ∧ events = subtrees.flatMap Member.report
  stopped : ∀ e, result = .error e → ∃ before c after,
    subtrees = before ++ .condition c :: after ∧ (∀ m ∈ before, ∃ t, m.rule = .ok t) ∧
      c.rule = .error e ∧ events = before.flatMap Member.report ++ c.events

namespace Reported

variable {xs ys : List Member}

theorem condition (c : Condition) : Reported [.condition c] c.events c.rule where
  complete s hs := by
    refine ⟨?_, (List.flatMap_singleton _ _).symm⟩
    rw [List.forall_mem_singleton, Member.rule_condition]
    exact ⟨s, hs⟩
  stopped e he := ⟨[], c, [], rfl, by simp, he, rfl⟩

theorem group {connective : Connective} {ms : Members} {s : String}
    (h : (Member.group connective ms).rule = .ok s) :
    Reported [.group connective ms] [.group connective ms.length s] (.ok s) where
  complete t ht := by
    refine ⟨List.forall_mem_singleton.mpr ⟨s, h⟩, ?_⟩
    rw [List.flatMap_singleton, Member.report, h]
  stopped e he := by cases he

theorem nil (s : String) : Reported [] [] (.ok s) where
  complete t ht := by simp
  stopped e he := by cases he

/-- What comes second reports only if nothing before it was refused. -/
theorem bind {x : Traced String} {f : String → Traced String}
    (hx : Reported xs x.events x.result)
    (hf : ∀ a, x.result = .ok a → Reported ys (f a).events (f a).result) :
    Reported (xs ++ ys) (x >>= f).events (x >>= f).result := by
  cases hr : x.result with
  | error e =>
    rw [events_bind_of_error f hr, result_bind, hr]
    obtain ⟨before, c, after, hs, hb, hc, he⟩ := hx.stopped e hr
    constructor
    · intro s hs
      cases hs
    · intro e' he'
      cases he'
      refine ⟨before, c, after ++ ys, ?_, hb, hc, he⟩
      rw [hs, List.append_assoc, List.cons_append]
  | ok a =>
    rw [events_bind_of_ok f hr, result_bind, hr]
    obtain ⟨hall, hev⟩ := hx.complete a hr
    have hy := hf a hr
    constructor
    · intro s hs
      obtain ⟨hally, hevy⟩ := hy.complete s hs
      exact ⟨List.forall_mem_append.mpr ⟨hall, hally⟩, by rw [hev, hevy, List.flatMap_append]⟩
    · intro e he
      obtain ⟨before, c, after, hs, hb, hc, hevy⟩ := hy.stopped e he
      refine ⟨xs ++ before, c, after, ?_, List.forall_mem_append.mpr ⟨hall, hb⟩, hc, ?_⟩
      · rw [hs, List.append_assoc]
      · rw [hev, hevy, List.flatMap_append, List.append_assoc]

theorem map {x : Traced String} (g : String → String) (hx : Reported xs x.events x.result) :
    Reported xs (x >>= fun a => pure (g a)).events (x >>= fun a => pure (g a)).result := by
  have h : Reported (xs ++ []) (x >>= fun a => pure (g a)).events
      (x >>= fun a => pure (g a)).result := hx.bind fun a _ => nil (g a)
  rwa [List.append_nil] at h

end Reported

mutual

theorem Member.reported_render (m : Member) : Reported m.subtrees m.render.events m.rule := by
  match m with
  | .condition c =>
    rw [Member.rule_condition, Member.render, Condition.events_render]
    exact .condition c
  | .group connective ms =>
    have hms := Members.reported_render connective ms
    rw [Member.rule, Member.subtrees, Member.render]
    apply hms.bind
    intro s hs
    rw [← Member.rule_group] at hs
    exact .group hs

theorem Members.reported_render (connective : Connective) (ms : Members) :
    Reported ms.subtrees (ms.render connective).events (ms.render connective).result := by
  match ms with
  | .last m =>
    have hm := Member.reported_render m
    rw [Members.subtrees, Members.render]
    exact hm.map fun s => "(" ++ s ++ ")"
  | .cons m ms =>
    have hm := Member.reported_render m
    have hms := Members.reported_render connective ms
    rw [Members.subtrees, Members.render]
    apply hm.bind
    intro s _
    exact hms.map fun t => "(" ++ s ++ ")" ++ connective.separator ++ t

end

end Trees

section Records

/-- What is seen of an event. -/
structure Record where
  level : Level
  attributes : List (String × Attribute)
deriving DecidableEq

def Event.record (event : Event) : Record := ⟨event.level, event.attributes⟩

/-- A record of rendering, with the values after its phase. -/
def Record.rendered (level : Level) (phase : String) (values : List (String × Attribute)) : Record :=
  ⟨level, ("event", .text "Render") :: ("phase", .text phase) :: values⟩

def Connective.sign : Connective → String
  | .and => "&&"
  | .or => "||"

/-- The name of the category of the conditions with the test. -/
def Test.categoryName : Test → String
  | .isTrue => "boolean"
  | .within .. => "timestamp"
  | .compareNumber .. | .inNumbers .. | .isInteger | .isFloat => "number"
  | .compareString .. | .stringSize .. | .inStrings .. => "string"
  | .distance .. => "geo"
  | .mapSize .. | .mapGet .. | .mapKeys .. | .mapValues .. => "map"
  | .listSize .. | .listGet .. | .listSet .. => "list"

def Field.record (f : Field) : Record := .rendered .trace "Field" [("rule", .text f.text)]

namespace Condition

def textRecord (c : Condition) (s : String) : Record :=
  .rendered .debug "Condition" [("category", .text c.test.categoryName), ("rule", .text s)]

/-- The only record that is a warning. -/
def refusalRecord (c : Condition) (e : Malformed) : Record :=
  .rendered .warn "Condition" [("category", .text c.test.categoryName),
    ("error", .text ("malformed condition: " ++ e.payload))]

def records (c : Condition) : List Record :=
  c.renderedFields.map Field.record ++
    [match c.rule with
      | .ok s => c.textRecord s
      | .error e => c.refusalRecord e]

end Condition

def Members.textRecord (connective : Connective) (ms : Members) (s : String) : Record :=
  .rendered .debug "Group" [("operation", .text connective.sign),
    ("members", .count ms.toList.length), ("rule", .text s)]

/-- What is seen of what a subtree itself reports. -/
def Member.records : Member → List Record
  | .condition c => c.records
  | .group connective ms =>
    match (Member.group connective ms).rule with
    | .ok s => [ms.textRecord connective s]
    | .error _ => []

def Group.loadRecord (g : Group) : Record :=
  ⟨.debug, [("event", .text "Load"), ("phase", .text "Group"),
    ("operation", .text g.connective.sign), ("members", .count g.members.toList.length),
    ("depth", .count g.depth)]⟩

theorem Connective.token_eq_sign (connective : Connective) :
    Token.token connective = connective.sign := by
  cases connective <;> rfl

theorem Condition.token_category (c : Condition) :
    Token.token c.category = c.test.categoryName := by
  obtain ⟨f, t⟩ := c
  cases t <;> rfl

theorem Condition.record_text (c : Condition) (s : String) :
    (Event.condition c.category s).record = c.textRecord s := by
  rw [textRecord, ← token_category]
  rfl

theorem Condition.record_refused (c : Condition) (e : Malformed) :
    (Event.refused c.category e).record = c.refusalRecord e := by
  rw [refusalRecord, ← token_category]
  rfl

theorem Members.record_group (connective : Connective) (ms : Members) (s : String) :
    (Event.group connective ms.length s).record = ms.textRecord connective s := by
  rw [textRecord, ← connective.token_eq_sign, ms.length_toList]
  rfl

theorem Group.record_loaded (g : Group) :
    (Event.loaded g.connective g.length g.depth).record = g.loadRecord := by
  rw [loadRecord, ← g.connective.token_eq_sign, g.members.length_toList]
  rfl

theorem Condition.map_record_events (c : Condition) : c.events.map Event.record = c.records := by
  rw [events, records, List.map_append, List.map_map, List.map_singleton, outcome]
  congr 2
  cases c.rule with
  | ok s => exact c.record_text s
  | error e => exact c.record_refused e

theorem Member.map_record_report (m : Member) : m.report.map Event.record = m.records := by
  cases m with
  | condition c => exact c.map_record_events
  | group connective ms =>
    rw [report, records]
    cases (Member.group connective ms).rule with
    | ok s => exact congrArg (fun r => [r]) (ms.record_group connective s)
    | error e => rfl

theorem map_record_reports (subtrees : List Member) :
    (subtrees.flatMap Member.report).map Event.record = subtrees.flatMap Member.records := by
  rw [List.map_flatMap]
  simp only [Member.map_record_report]

end Records

section Counting

def Event.isCondition : Event → Bool
  | .condition .. => true
  | _ => false

def Event.isGroup : Event → Bool
  | .group .. => true
  | _ => false

def Member.isCondition : Member → Bool
  | .condition _ => true
  | .group .. => false

def Member.isGroup (m : Member) : Bool := !m.isCondition

mutual

def Member.groups : Member → Nat
  | .condition _ => 0
  | .group _ ms => ms.groups + 1

def Members.groups : Members → Nat
  | .last m => m.groups
  | .cons m ms => m.groups + ms.groups

end

mutual

/-- Every condition and every group of a tree is one of its subtrees. -/
theorem Member.countP_subtrees (m : Member) :
    m.subtrees.countP Member.isCondition = m.conditions.length ∧
      m.subtrees.countP Member.isGroup = m.groups := by
  match m with
  | .condition c => exact ⟨rfl, rfl⟩
  | .group connective ms =>
    obtain ⟨hc, hg⟩ := Members.countP_subtrees ms
    have h₁ : (Member.group connective ms).isCondition = false := rfl
    have h₂ : (Member.group connective ms).isGroup = true := rfl
    simp [Member.subtrees, Member.conditions, Member.groups, h₁, h₂, hc, hg]

theorem Members.countP_subtrees (ms : Members) :
    ms.subtrees.countP Member.isCondition = ms.conditions.length ∧
      ms.subtrees.countP Member.isGroup = ms.groups := by
  match ms with
  | .last m => exact Member.countP_subtrees m
  | .cons m ms =>
    obtain ⟨hc, hg⟩ := Member.countP_subtrees m
    obtain ⟨hcs, hgs⟩ := Members.countP_subtrees ms
    simp [Members.subtrees, Members.conditions, Members.groups, List.countP_append, hc, hg, hcs, hgs]

end

/-- The events carry no warning, and tell the texts of as many conditions and groups as given. -/
structure Quiet (conditions groups : Nat) (events : List Event) : Prop where
  level : ∀ event ∈ events, event.level ≠ .warn
  conditions : events.countP Event.isCondition = conditions
  groups : events.countP Event.isGroup = groups

theorem Quiet.append {j k m n : Nat} {xs ys : List Event} (hx : Quiet j m xs) (hy : Quiet k n ys) :
    Quiet (j + k) (m + n) (xs ++ ys) where
  level := List.forall_mem_append.mpr ⟨hx.level, hy.level⟩
  conditions := by rw [List.countP_append, hx.conditions, hy.conditions]
  groups := by rw [List.countP_append, hx.groups, hy.groups]

theorem quiet_fields (fields : List Field) :
    Quiet 0 0 (fields.map fun f => .field f.text) where
  level := by simp [Event.level]
  conditions := by simp [List.countP_eq_zero, Event.isCondition]
  groups := by simp [List.countP_eq_zero, Event.isGroup]

/-- A subtree with text tells it once. -/
theorem Member.quiet_report {m : Member} (h : ∃ s, m.rule = .ok s) :
    Quiet ([m].countP Member.isCondition) ([m].countP Member.isGroup) m.report := by
  obtain ⟨s, hs⟩ := h
  cases m with
  | condition c =>
    rw [Member.rule_condition] at hs
    have hlast : Quiet 1 0 [Event.condition c.category s] := ⟨by simp [Event.level], rfl, rfl⟩
    rw [Member.report, Condition.events, Condition.outcome_of_ok hs]
    exact (quiet_fields c.renderedFields).append hlast
  | group connective ms =>
    rw [Member.report, hs]
    exact ⟨by simp [Event.level], rfl, rfl⟩

theorem quiet_reports {subtrees : List Member} (h : ∀ m ∈ subtrees, ∃ s, m.rule = .ok s) :
    Quiet (subtrees.countP Member.isCondition) (subtrees.countP Member.isGroup)
      (subtrees.flatMap Member.report) := by
  induction subtrees with
  | nil => exact ⟨by simp, rfl, rfl⟩
  | cons m subtrees ih =>
    obtain ⟨hm, hms⟩ := List.forall_mem_cons.mp h
    have ha := (Member.quiet_report hm).append (ih hms)
    rwa [← List.countP_append, ← List.countP_append, List.singleton_append,
      ← List.flatMap_cons] at ha

end Counting

namespace Group

/-- The events of a group with text: every subtree tells its text, the group itself at last. -/
theorem events_of_ok {g : Group} {s : String} (h : g.rule = .ok s) :
    g.render.events = g.toMember.subtrees.flatMap Member.report ∧
      Quiet g.members.conditions.length g.toMember.groups g.render.events ∧
      g.render.events.getLast? = some (.group g.connective g.length s) := by
  obtain ⟨hall, hev⟩ := (Member.reported_render g.toMember).complete s h
  obtain ⟨hc, hg⟩ := Member.countP_subtrees g.toMember
  have hq := quiet_reports hall
  rw [hc, hg, ← hev] at hq
  refine ⟨hev, hq, ?_⟩
  have hlast : g.toMember.report = [.group g.connective g.length s] := by
    have hr : g.toMember.rule = .ok s := h
    unfold toMember at hr ⊢
    rw [Member.report, hr]
    rfl
  have hsub : g.toMember.subtrees = g.members.subtrees ++ [g.toMember] := by
    unfold toMember
    rw [Member.subtrees]
  have hev' : g.render.events = g.toMember.subtrees.flatMap Member.report := hev
  rw [hev', hsub, List.flatMap_append, List.flatMap_singleton, hlast]
  simp

/-- The events of a group without text: they end with the condition that is refused. -/
theorem events_of_error {g : Group} {e : Malformed} (h : g.rule = .error e) :
    ∃ before c after, g.toMember.subtrees = before ++ .condition c :: after ∧
      (∀ m ∈ before, ∃ s, m.rule = .ok s) ∧ c.rule = .error e ∧
      ∃ quiet, Quiet (before.countP Member.isCondition) (before.countP Member.isGroup) quiet ∧
        before.flatMap Member.report ++ c.events = quiet ++ [.refused c.category e] ∧
        g.render.events = quiet ++ [.refused c.category e] := by
  obtain ⟨before, c, after, hs, hb, hc, hev⟩ := (Member.reported_render g.toMember).stopped e h
  have hq := (quiet_reports hb).append (quiet_fields c.renderedFields)
  have hsplit : before.flatMap Member.report ++ c.events =
      before.flatMap Member.report ++ c.renderedFields.map (fun f => .field f.text) ++
        [.refused c.category e] := by
    rw [Condition.events, Condition.outcome_of_error hc, List.append_assoc]
  exact ⟨before, c, after, hs, hb, hc, _, hq, hsplit, hev.trans hsplit⟩

theorem events_load_of_ok {text : String} {g : Group} (h : Group.parse text = .ok g) :
    (Group.load text).events = [.loaded g.connective g.length g.depth] ∧
      (Group.loadRule text).events = .loaded g.connective g.length g.depth :: g.render.events := by
  have hl : Group.load text = ⟨[.loaded g.connective g.length g.depth], .ok g⟩ := by
    unfold Group.load
    rw [h]
    rfl
  unfold Group.loadRule
  rw [hl]
  exact ⟨rfl, rfl⟩

theorem events_load_of_error {text : String} {e : Malformed} (h : Group.parse text = .error e) :
    (Group.load text).events = [] ∧ (Group.loadRule text).events = [] := by
  have hl : Group.load text = ⟨[], .error e⟩ := by
    unfold Group.load
    rw [h]
    rfl
  unfold Group.loadRule
  rw [hl]
  exact ⟨rfl, rfl⟩

end Group

/-- A group with text reports every subtree after those inside it, without a warning, and its own
text at last. A group without text reports what stands before the condition that is refused, and then
this condition, with the only warning at last. Loading reports once, and only what could be read. -/
theorem Group.events_tell_rendering :
    (∀ (g : Group) (s : String), g.rule = .ok s →
      g.render.events = g.toMember.subtrees.flatMap Member.report ∧
      g.render.events.map Event.record = g.toMember.subtrees.flatMap Member.records ∧
      (∀ event ∈ g.render.events, event.level ≠ .warn) ∧
      g.render.events.countP Event.isCondition = g.members.conditions.length ∧
      g.render.events.countP Event.isGroup = g.toMember.groups ∧
      g.render.events.getLast? = some (.group g.connective g.length s) ∧
      (g.render.events.map Event.record).getLast? = some (g.members.textRecord g.connective s)) ∧
    (∀ (g : Group) (e : Malformed), g.rule = .error e →
      ∃ before c after, g.toMember.subtrees = before ++ .condition c :: after ∧
        (∀ m ∈ before, ∃ s, m.rule = .ok s) ∧ c.rule = .error e ∧
        g.render.events = before.flatMap Member.report ++ c.events ∧
        g.render.events.map Event.record = before.flatMap Member.records ++ c.records ∧
        g.render.events.countP (fun event => decide (event.level = .warn)) = 1 ∧
        g.render.events.getLast? = some (.refused c.category e) ∧
        (Event.refused c.category e).attributes.lookup "error" = some (.text e.message) ∧
        (g.render.events.map Event.record).getLast? = some (c.refusalRecord e) ∧
        g.render.events.countP Event.isCondition = before.countP Member.isCondition ∧
        g.render.events.countP Event.isGroup = before.countP Member.isGroup) ∧
    (∀ (text : String) (g : Group), Group.parse text = .ok g →
      (Group.load text).events = [.loaded g.connective g.length g.depth] ∧
      (Group.load text).events.map Event.record = [g.loadRecord] ∧
      (Group.loadRule text).events = .loaded g.connective g.length g.depth :: g.render.events) ∧
    (∀ (text : String) (e : Malformed), Group.parse text = .error e →
      (Group.load text).events = [] ∧ (Group.loadRule text).events = []) := by
  refine ⟨?_, ?_, ?_, fun text e => events_load_of_error⟩
  · intro g s hs
    obtain ⟨hev, hq, hlast⟩ := events_of_ok hs
    refine ⟨hev, ?_, hq.level, hq.conditions, hq.groups, hlast, ?_⟩
    · rw [hev, map_record_reports]
    · rw [List.getLast?_map, hlast, Option.map_some]
      exact congrArg some (g.members.record_group g.connective s)
  · intro g e he
    obtain ⟨before, c, after, hs, hb, hc, quiet, hq, hsplit, hev⟩ := events_of_error he
    have hevents := hev.trans hsplit.symm
    have hlast : g.render.events.getLast? = some (.refused c.category e) := by
      rw [hev]
      exact List.getLast?_concat
    refine ⟨before, c, after, hs, hb, hc, hevents, ?_, ?_, hlast, rfl, ?_, ?_, ?_⟩
    · rw [hevents, List.map_append, map_record_reports, c.map_record_events]
    · have hz : quiet.countP (fun event => decide (event.level = .warn)) = 0 := by
        rw [List.countP_eq_zero]
        intro event hm
        simpa using hq.level event hm
      rw [hev, List.countP_append, hz]
      rfl
    · rw [List.getLast?_map, hlast, Option.map_some, c.record_refused]
    · rw [hev, List.countP_append, hq.conditions]
      rfl
    · rw [hev, List.countP_append, hq.groups]
      rfl
  · intro text g h
    obtain ⟨hload, hrule⟩ := events_load_of_ok h
    refine ⟨hload, ?_, hrule⟩
    rw [hload, List.map_singleton, g.record_loaded]

/-- In `(.a) && ((updated b) || (.c))` nothing is reported after the condition on `b`. -/
theorem Group.events_tell_rendering_nested :
    let field (name : String) : Path := ⟨[.literal name], by simp⟩
    let g : Group := ⟨.and, .cons (.condition ⟨.here (field "a"), .isTrue⟩)
      (.last (.group .or (.cons (.condition ⟨.updated (field "b"), .isInteger⟩)
        (.last (.condition ⟨.here (field "c"), .isTrue⟩)))))⟩
    g.rule = .error (.updateTarget (field "b")) ∧
      (∃ c, g.render.events.getLast? = some (.refused c (.updateTarget (field "b")))) ∧
      g.render.events.countP (fun event => decide (event.level = .warn)) = 1 ∧
      g.render.events.map Event.record =
        [⟨.trace, [("event", .text "Render"), ("phase", .text "Field"), ("rule", .text ".a")]⟩,
          ⟨.debug, [("event", .text "Render"), ("phase", .text "Condition"),
            ("category", .text "boolean"), ("rule", .text ".a")]⟩,
          ⟨.warn, [("event", .text "Render"), ("phase", .text "Condition"),
            ("category", .text "number"), ("error", .text
              "malformed condition: update-target field 'b' has no rule-language rendering")]⟩] := by
  intro field g
  have hg : g.rule = .error (.updateTarget (field "b")) := by
    rfl
  obtain ⟨_, c, _, -, -, -, -, -, hone, hlast, -⟩ := events_tell_rendering.2.1 g _ hg
  exact ⟨hg, ⟨c.category, hlast⟩, hone, by decide⟩

end AccessRules
