import AccessRules.Proofs.Rule.Events
import AccessRules.Proofs.Rule.Grouping
import AccessRules.Proofs.Tuple.Acceptance
import AccessRules.Proofs.Tuple.ThroughText
import AccessRules.Stack

/-! The depth of a group and the nesting of its tuple form bound each other. Text is read up to a
fixed nesting, so a group that is read from text has a bounded depth, and everything that recurses
over such a group takes a bounded number of levels. -/
namespace AccessRules

section Levels

/-- The second member stands the given number of groups below the first. -/
inductive Member.Below : Nat → Member → Member → Prop
  | self (m : Member) : Below 0 m m
  | member {n : Nat} {connective : Connective} {ms : Members} {m inner : Member}
      (hm : m ∈ ms.toList) (h : Below n m inner) : Below (n + 1) (.group connective ms) inner

theorem Members.depth_le_of_mem {ms : Members} {m : Member} (h : m ∈ ms.toList) :
    m.depth ≤ ms.depth := by
  match ms with
  | .last n =>
    obtain rfl := List.mem_singleton.mp h
    exact Nat.le_refl _
  | .cons n ns =>
    rw [Members.depth]
    rcases List.mem_cons.mp h with rfl | h
    · exact Nat.le_max_left _ _
    · exact Nat.le_trans (depth_le_of_mem h) (Nat.le_max_right _ _)

theorem Members.exists_mem_depth_eq {ms : Members} {n : Nat} (h : ms.depth = n) :
    ∃ m ∈ ms.toList, m.depth = n := by
  match ms, h with
  | .last m, h => exact ⟨m, List.mem_cons_self, h⟩
  | .cons m ms, h =>
    rw [Members.depth] at h
    rcases Nat.le_total ms.depth m.depth with hle | hle
    · exact ⟨m, List.mem_cons_self, by omega⟩
    · have hms : ms.depth = n := by omega
      obtain ⟨k, hk, he⟩ := exists_mem_depth_eq hms
      exact ⟨k, List.mem_cons_of_mem _ hk, he⟩

/-- No chain of groups is longer than the depth. -/
theorem Member.Below.add_depth_le {n : Nat} {m inner : Member} (h : Below n m inner) :
    n + inner.depth ≤ m.depth := by
  induction h with
  | self m => omega
  | member hm _ ih =>
    have hle := Members.depth_le_of_mem hm
    rw [Member.depth]
    omega

/-- Some chain of groups is as long as the depth, and it ends at a condition. -/
theorem Member.exists_below_depth (m : Member) : ∃ c, Below m.depth m (.condition c) := by
  generalize hd : m.depth = n
  induction n generalizing m with
  | zero =>
    cases m with
    | condition c => exact ⟨c, .self _⟩
    | group connective ms =>
      rw [Member.depth] at hd
      omega
  | succ n ih =>
    cases m with
    | condition c =>
      rw [Member.depth] at hd
      omega
    | group connective ms =>
      obtain ⟨m, hm, he⟩ := Members.exists_mem_depth_eq (Nat.succ.inj hd)
      obtain ⟨c, hc⟩ := ih m he
      exact ⟨c, .member hm hc⟩

end Levels

section Paths

def Field.paths : Field → List Path
  | .here path | .updated path => [path]
  | .elsewhere document path => [document, path]

/-- The paths of the field and of the field that a distance is measured to. -/
def Condition.paths (c : Condition) : List Path := (c.field :: c.test.targetFields).flatMap Field.paths

theorem Path.one_le_length (p : Path) : 1 ≤ p.length := List.length_pos_iff.mpr p.nonempty

theorem Path.exists_ofList_iff (ss : List Segment) :
    (∃ p, Path.ofList ss = .ok p) ↔ ss ≠ [] := by
  simp only [Path.ofList_eq_ok_iff]
  constructor
  · rintro ⟨p, rfl⟩
    exact p.nonempty
  · intro h
    exact ⟨⟨ss, h⟩, rfl⟩

theorem Group.exists_ofList_iff (connective : Connective) (list : List Member) :
    (∃ g, Group.ofList connective list = .ok g) ↔ list ≠ [] := by
  cases list with
  | nil => simp [Group.ofList, Members.ofList?]
  | cons m list => simp [Group.ofList, Members.ofList?]

end Paths

section Nesting

namespace Json

theorem entriesNesting_le_iff (es : List (String × Json)) (n : Nat) :
    entriesNesting es ≤ n ↔ ∀ e ∈ es, e.2.nesting ≤ n := by
  induction es with
  | nil => simp [entriesNesting]
  | cons e es ih => rw [entriesNesting, Nat.max_le, ih, List.forall_mem_cons]

theorem nesting_le_of_mem {items : List Json} {v : Json} (h : v ∈ items) :
    v.nesting ≤ itemsNesting items :=
  (itemsNesting_le_iff items _).mp (Nat.le_refl _) v h

theorem nesting_le_of_lookup {entries : List (String × Json)} {key : String} {v : Json}
    (h : entries.lookup key = some v) : v.nesting ≤ entriesNesting entries := by
  obtain ⟨before, after, rfl, -⟩ := List.lookup_eq_some_iff.mp h
  exact (entriesNesting_le_iff _ _).mp (Nat.le_refl _) (key, v) (by simp)

theorem nesting_ofEntries_le {entries : List (String × Json)} {n : Nat}
    (h : ∀ e ∈ entries, e.2.nesting ≤ n) : (ofEntries entries).nesting ≤ n + 1 := by
  have hfold (sorted : List (String × Json)) (hs : ∀ e ∈ sorted, e.2.nesting ≤ n) :
      ∀ e ∈ entries.foldl (fun sorted entry => setEntry entry.1 entry.2 sorted) sorted,
        e.2.nesting ≤ n := by
    induction entries generalizing sorted with
    | nil => exact hs
    | cons d entries ih =>
      obtain ⟨hd, he⟩ := List.forall_mem_cons.mp h
      apply ih he
      intro e hm
      rcases mem_setEntry hm with rfl | hm
      · exact hd
      · exact hs e hm
  exact Nat.succ_le_succ ((entriesNesting_le_iff _ n).mpr (hfold [] (by simp)))

/-- The reader keeps to the number of levels that it is given. -/
theorem nesting_le_of_readValue {depth : Nat} {cs rest : List Char} {v : Json}
    (h : readValue depth cs = .ok (v, rest)) : v.nesting ≤ depth := by
  cases readForm_of_readValue h with
  | null | bool | string | number => exact Nat.zero_le _
  | array hd hr =>
    subst hd
    exact nesting_array_le (forall_of_readArray (fun hv => nesting_le_of_readValue hv) hr)
  | object hd hr =>
    subst hd
    exact nesting_ofEntries_le (forall_of_readObject (fun hv => nesting_le_of_readValue hv) hr)
termination_by depth
decreasing_by all_goals omega

theorem nesting_le_of_load {text : String} {v : Json} (h : load text = .ok v) :
    v.nesting ≤ maxDepth := by
  have hr : read text = .ok v := Outcome.mapError_eq_ok_iff.mp h
  obtain ⟨⟨w, rest⟩, hf, h⟩ := Outcome.bind_eq_ok_iff.mp hr
  obtain ⟨-, -, h⟩ := Outcome.bind_eq_ok_iff.mp h
  cases h
  exact nesting_le_of_readValue (Outcome.mapError_eq_ok_iff.mp hf)

/-- Reading the first value as a group comes to read the second, after the given number of calls. -/
inductive Below : Nat → Json → Json → Prop
  | self (v : Json) : Below 0 v v
  | member {n : Nat} {entries : List (String × Json)} {items : List Json} {v inner : Json}
      (hc : entries.lookup "conditions" = some (.array items)) (hv : v ∈ items)
      (h : Below n v inner) : Below (n + 1) (.object entries) inner

theorem Below.add_nesting_le {n : Nat} {v inner : Json} (h : Below n v inner) :
    2 * n + inner.nesting ≤ v.nesting := by
  induction h with
  | self v => omega
  | member hc hv _ ih =>
    have hl := nesting_le_of_lookup hc
    have hi := nesting_le_of_mem hv
    simp only [nesting] at hl ⊢
    omega

end Json

theorem Field.TupleForm.two_le_nesting {v : Json} {f : Field} (h : Field.TupleForm v f) :
    2 ≤ v.nesting := by
  cases h with
  | here hp | elsewhere _ hp | updated hp =>
    obtain ⟨_⟩ := hp
    simp only [Json.nesting, Json.itemsNesting]
    omega

theorem Condition.TupleForm.two_le_nesting {v : Json} {k : Category} {c : Condition}
    (h : Condition.TupleForm v k c) : 2 ≤ v.nesting := by
  cases h with
  | bare hf => exact hf.two_le_nesting
  | tuple hf _ =>
    have h := hf.two_le_nesting
    simp only [Json.nesting, Json.itemsNesting]
    omega

mutual

/-- Whatever a member is read from is at least as nested as the member's own tuple form has to be. -/
theorem Member.TupleForm.le_nesting {v : Json} {m : Member} (h : Member.TupleForm v m) :
    2 * m.depth + 2 ≤ v.nesting := by
  match h with
  | .condition hc =>
    rw [Member.depth]
    exact hc.two_le_nesting
  | .group _ _ hc hm =>
    have hi := Members.TupleForm.le_itemsNesting hm
    have hl := Json.nesting_le_of_lookup hc
    rw [Json.nesting] at hl
    rw [Member.depth, Json.nesting]
    omega

theorem Members.TupleForm.le_itemsNesting {items : List Json} {ms : Members}
    (h : Members.TupleForm items ms) : 2 * ms.depth + 2 ≤ Json.itemsNesting items := by
  match h with
  | .last hm =>
    have hv := Member.TupleForm.le_nesting hm
    rw [Members.depth, Json.itemsNesting]
    omega
  | .cons hm hs =>
    have hv := Member.TupleForm.le_nesting hm
    have hi := Members.TupleForm.le_itemsNesting hs
    rw [Members.depth, Json.itemsNesting]
    omega

end

theorem Group.depth_le_of_parse {text : String} {g : Group} (h : Group.parse text = .ok g) :
    g.depth ≤ 62 := by
  obtain ⟨v, hl, h⟩ := Outcome.bind_eq_ok_iff.mp h
  have hn : v.nesting ≤ 127 := Json.nesting_le_of_load hl
  have hd : 2 * g.depth + 2 ≤ v.nesting := ((Group.ofJson_eq_ok_iff v g).mp h).le_nesting
  omega

end Nesting

section Wrapped

variable (connective : Connective)

theorem Member.depth_wrap (n : Nat) (m : Member) : (m.wrap connective n).depth = m.depth + n := by
  induction n generalizing m with
  | zero => rfl
  | succ n ih =>
    rw [Member.wrap, ih, Member.depth, Members.depth]
    omega

theorem Member.nesting_toJson_wrap (n : Nat) (m : Member) :
    (m.wrap connective n).toJson.nesting = m.toJson.nesting + 2 * n := by
  induction n generalizing m with
  | zero => rfl
  | succ n ih =>
    rw [Member.wrap, ih]
    simp only [Member.toJson, Members.toJsons, Json.nesting, Json.entriesNesting, Json.itemsNesting,
      Json.nesting_ofToken]
    omega

theorem Member.conditions_wrap (n : Nat) (m : Member) :
    (m.wrap connective n).conditions = m.conditions := by
  induction n generalizing m with
  | zero => rfl
  | succ n ih => rw [Member.wrap, ih, Member.conditions, Members.conditions]

theorem Member.TupleForm.wrap (n : Nat) {m : Member} (h : Member.TupleForm m.toJson m) :
    Member.TupleForm (m.wrap connective n).toJson (m.wrap connective n) := by
  induction n generalizing m with
  | zero => exact h
  | succ n ih => exact ih (.group (by simp) rfl rfl (.last h))

/-- Up to the nesting limit, a member in any number of groups is read back from the text. -/
theorem Group.parse_text_wrap (n : Nat) {m : Member} (hm : Member.TupleForm m.toJson m)
    (hp : ∀ c ∈ m.conditions, ∀ x ∈ c.test.numbers, (Json.ofDouble x).Printable)
    (hn : m.toJson.nesting + 2 * n + 2 ≤ Json.maxDepth) :
    Group.parse (Group.toJson ⟨connective, .last (m.wrap connective n)⟩).text =
      .ok ⟨connective, .last (m.wrap connective n)⟩ := by
  have hw := Member.nesting_toJson_wrap connective n m
  have hle : (Group.toJson ⟨connective, .last (m.wrap connective n)⟩).nesting ≤ Json.maxDepth := by
    simp only [Group.toJson, Group.toMember, Member.toJson, Members.toJsons, Json.nesting,
      Json.entriesNesting, Json.itemsNesting, Json.nesting_ofToken, hw]
    omega
  have hprint : (Group.toJson ⟨connective, .last (m.wrap connective n)⟩).Printable := by
    apply Member.printable_toJson
    rw [Group.toMember, Member.conditions, Members.conditions, Member.conditions_wrap]
    exact hp
  rw [Group.parse_text_of_le hprint hle, Group.ofJson_eq_ok_iff]
  exact .group (by simp) rfl rfl (.last (hm.wrap connective n))

end Wrapped

/-- The text of a group of sixty-two levels is still read. -/
theorem Group.exists_parse_of_depth : ∃ text g, Group.parse text = .ok g ∧ g.depth = 62 := by
  let f : Field := .here ⟨[.literal "a"], by simp⟩
  have hf : Field.TupleForm f.toJson f := .here (.list (.cons (.literal "a") .nil))
  have hm : Member.TupleForm (Member.toJson (.condition ⟨f, .isTrue⟩)) (.condition ⟨f, .isTrue⟩) :=
    .condition (.bare hf)
  refine ⟨_, _, Group.parse_text_wrap .and 61 hm (by simp [Member.conditions, Test.numbers])
    (by decide), ?_⟩
  rw [Group.depth, Group.toMember, Member.depth, Members.depth, Member.depth_wrap, Member.depth]

/-- The depth of a group counts its levels, each of which nests its tuple form by two, so that what
is read from text is bounded: the nesting of the value, the levels that reading it goes through, and
the depth of the group. Groups and paths are never empty. -/
theorem Group.depth_tracks_nesting :
    (∀ connective list, (∃ g, Group.ofList connective list = .ok g) ↔ list ≠ []) ∧
    (∀ ss, (∃ p, Path.ofList ss = .ok p) ↔ ss ≠ []) ∧
    (∀ g : Group,
      (∀ n connective ms, Member.Below n g.toMember (.group connective ms) → 1 ≤ ms.length) ∧
      (∀ n c, Member.Below n g.toMember (.condition c) → ∀ p ∈ c.paths, 1 ≤ p.length) ∧
      2 * g.depth + 2 ≤ g.toJson.nesting ∧ g.toJson.nesting ≤ 2 * g.depth + 5 ∧
      (∀ n m, Member.Below n g.toMember m → n ≤ g.depth) ∧
      ∃ c, Member.Below g.depth g.toMember (.condition c)) ∧
    (∀ text v, Json.load text = .ok v →
      v.nesting ≤ 127 ∧ ∀ n inner, Json.Below n v inner → n ≤ 63) ∧
    (∀ text g, Group.parse text = .ok g →
      g.depth ≤ 62 ∧ ∀ n m, Member.Below n g.toMember m → n ≤ 62) ∧
    ∃ text g, Group.parse text = .ok g ∧ g.depth = 62 := by
  have hdepth {g : Group} {n : Nat} {m : Member} (h : Member.Below n g.toMember m) : n ≤ g.depth :=
    Nat.le_trans (Nat.le_add_right n m.depth) h.add_depth_le
  refine ⟨Group.exists_ofList_iff, Path.exists_ofList_iff, ?_, ?_, ?_, Group.exists_parse_of_depth⟩
  · intro g
    obtain ⟨hge, hle⟩ := g.toMember.nesting_toJson
    exact ⟨fun _ _ ms _ => ms.one_le_length, fun _ _ _ p _ => p.one_le_length, hge, hle,
      fun _ _ => hdepth, g.toMember.exists_below_depth⟩
  · intro text v hl
    have hv : v.nesting ≤ 127 := Json.nesting_le_of_load hl
    refine ⟨hv, ?_⟩
    intro n inner h
    have hn := h.add_nesting_le
    omega
  · intro text g hp
    have hd := Group.depth_le_of_parse hp
    exact ⟨hd, fun n m h => Nat.le_trans (hdepth h) hd⟩

/-- Two levels of groups around a condition that alone is nested by five: its field is in another
document, at a place whose name is bound. -/
theorem Group.depth_tracks_nesting_bound :
    ∃ (text : String) (v inner : Json) (g : Group) (ms : Members) (c : Condition) (p : Path),
      Json.load text = .ok v ∧ Json.Below 1 v inner ∧ v.nesting ≤ 127 ∧ 1 ≤ 63 ∧
      Group.parse text = .ok g ∧ Member.Below 1 g.toMember (.group .or ms) ∧ 1 ≤ ms.length ∧
      Member.Below 2 g.toMember (.condition c) ∧ 2 ≤ g.depth ∧ g.depth ≤ 62 ∧
      c.toJson.nesting = 5 ∧ p ∈ c.paths ∧ 1 ≤ p.length := by
  let f : Field := .elsewhere ⟨[.literal "u"], by simp⟩ ⟨[.param "b"], by simp⟩
  let c : Condition := ⟨f, .compareString .eq (.string "x")⟩
  have hf : Field.TupleForm f.toJson f :=
    .elsewhere (.list (.cons (.literal "u") .nil)) (.list (.cons (.param "b") .nil))
  have hm : Member.TupleForm (Member.toJson (.condition c)) (.condition c) :=
    .condition (.tuple hf (.compareString .eq (.inl rfl) (.string "x") trivial))
  have hg : Group.parse _ = .ok ⟨.or, .last (.group .or (.last (.condition c)))⟩ :=
    Group.parse_text_wrap .or 1 hm (by simp [Member.conditions, c, Test.numbers, Scalar.numbers])
      (by decide)
  have hin : Member.Below 1 (.group .or (.last (.group .or (.last (.condition c)))))
      (.group .or (.last (.condition c))) := .member List.mem_cons_self (.self _)
  have hc : Member.Below 2 (.group .or (.last (.group .or (.last (.condition c))))) (.condition c) :=
    .member List.mem_cons_self (.member List.mem_cons_self (.self _))
  have hp : ⟨[.param "b"], by simp⟩ ∈ c.paths := List.mem_cons_of_mem _ List.mem_cons_self
  obtain ⟨v, hv, hread⟩ := Outcome.bind_eq_ok_iff.mp hg
  obtain ⟨inner, hinner⟩ : ∃ inner, Json.Below 1 v inner := by
    cases (Group.ofJson_eq_ok_iff _ _).mp hread with
    | group _ _ hconditions hms =>
      cases hms with
      | last _ => exact ⟨_, .member hconditions List.mem_cons_self (.self _)⟩
  obtain ⟨-, -, hgroup, hload, hparse, -⟩ := Group.depth_tracks_nesting
  obtain ⟨hlength, hpaths, -, -, hdepth, -⟩ := hgroup ⟨.or, .last (.group .or (.last (.condition c)))⟩
  obtain ⟨hnesting, hlevels⟩ := hload _ _ hv
  exact ⟨_, v, inner, _, _, c, _, hv, hinner, hnesting, hlevels _ _ hinner, hg, hin,
    hlength _ _ _ hin, hc, hdepth _ _ hc, (hparse _ _ hg).1, by decide, hp, hpaths _ _ hc _ hp⟩

end AccessRules
