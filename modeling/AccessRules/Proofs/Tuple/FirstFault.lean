import AccessRules.Proofs.Tuple.Acceptance
import AccessRules.Proofs.Utf8

/-! Reading a group reports the first fault it meets, and nothing after it: the keys of the object
come first, then its operation, then its list of conditions, and then the members in order. -/
namespace AccessRules

section Keys

/-- The key is none of the two that a group has. -/
def IsUnknownKey (key : String) : Prop := key ≠ "operation" ∧ key ≠ "conditions"

/-- The key is the first of the unknown ones in the order of their bytes. -/
structure IsLeastUnknown (entries : List (String × Json)) (key : String) : Prop where
  mem : key ∈ entries.map Prod.fst
  unknown : IsUnknownKey key
  least : ∀ e ∈ entries, IsUnknownKey e.1 → utf8 key ≤ utf8 e.1

theorem not_isUnknownKey_iff (key : String) :
    ¬ IsUnknownKey key ↔ key = "operation" ∨ key = "conditions" := by
  unfold IsUnknownKey
  rw [not_and_or, ne_eq, ne_eq, not_not, not_not]

theorem unknownKey?_eq_some {entries : List (String × Json)} {key : String}
    (h : unknownKey? entries = some key) : IsLeastUnknown entries key := by
  induction entries generalizing key with
  | nil => cases h
  | cons e entries ih =>
    rw [unknownKey?] at h
    split at h
    next hk =>
      obtain ⟨hm, hu, hl⟩ := ih h
      have he : ¬ IsUnknownKey e.1 := (not_isUnknownKey_iff e.1).mpr hk
      exact ⟨List.mem_cons_of_mem _ hm, hu,
        List.forall_mem_cons.mpr ⟨fun hu => (he hu).elim, hl⟩⟩
    next hk =>
      have hue : IsUnknownKey e.1 := by
        by_contra hn
        exact hk ((not_isUnknownKey_iff e.1).mp hn)
      split at h
      next least hleast =>
        obtain ⟨hm, hu, hl⟩ := ih hleast
        obtain rfl := Option.some.inj h
        split
        next hlt =>
          have hle : utf8 least ≤ utf8 e.1 := List.le_of_lt ((lt_iff_utf8_lt least e.1).mp hlt)
          exact ⟨List.mem_cons_of_mem _ hm, hu, List.forall_mem_cons.mpr ⟨fun _ => hle, hl⟩⟩
        next hge =>
          have hle : utf8 e.1 ≤ utf8 least := (le_iff_utf8_le e.1 least).mp (String.not_lt.mp hge)
          refine ⟨List.mem_cons_self, hue,
            List.forall_mem_cons.mpr ⟨fun _ => List.le_refl _, fun d hd hdu => ?_⟩⟩
          exact List.le_trans hle (hl d hd hdu)
      next hnone =>
        obtain rfl := Option.some.inj h
        have hknown := (unknownKey?_eq_none_iff entries).mp hnone
        refine ⟨List.mem_cons_self, hue,
          List.forall_mem_cons.mpr ⟨fun _ => List.le_refl _, fun d hd hdu => ?_⟩⟩
        exact ((not_isUnknownKey_iff d.1).mpr (hknown d hd) hdu).elim

theorem IsLeastUnknown.eq {entries : List (String × Json)} {key other : String}
    (h : IsLeastUnknown entries key) (h' : IsLeastUnknown entries other) : key = other := by
  obtain ⟨d, hd, rfl⟩ := List.mem_map.mp h.mem
  obtain ⟨e, he, rfl⟩ := List.mem_map.mp h'.mem
  have hle := (le_iff_utf8_le d.1 e.1).mpr (h.least e he h'.unknown)
  have hge := (le_iff_utf8_le e.1 d.1).mpr (h'.least d hd h.unknown)
  exact String.le_antisymm hle hge

end Keys

/-- Why an element is not read on its own: an object as a group, anything else as a condition. -/
def Json.refusal? : Json → Option Malformed
  | .object entries => Outcome.error? (Group.ofJson (.object entries))
  | v => Outcome.error? (Condition.ofJson v)

/-- The object has the keys of a group, a connective and a list of elements. -/
structure WellHeaded (entries : List (String × Json)) (connective : Connective)
    (items : List Json) : Prop where
  keys : ∀ e ∈ entries, ¬ IsUnknownKey e.1
  operation : entries.lookup "operation" = some (.ofToken connective)
  conditions : entries.lookup "conditions" = some (.array items)

/-- The first fault of an object that is read as a group, and the text it is reported with. Each fault
is met only if those above it are not there. -/
inductive FirstFault (entries : List (String × Json)) : Malformed → String → Prop
  | key {key : String} (h : IsLeastUnknown entries key) :
      FirstFault entries (.mismatch (.groupKey key) (.object entries))
        ("unexpected group key '" ++ key ++ "', found " ++ (Json.object entries).text)
  | noOperation (hk : ∀ e ∈ entries, ¬ IsUnknownKey e.1)
      (ho : entries.lookup "operation" = none) :
      FirstFault entries (.mismatch .noOperation (.object entries))
        ("missing group 'operation', found " ++ (Json.object entries).text)
  | notString {v : Json} (hk : ∀ e ∈ entries, ¬ IsUnknownKey e.1)
      (ho : entries.lookup "operation" = some v) (hv : ∀ s, v ≠ .string s) :
      FirstFault entries (.mismatch .token v) ("expected an operator token, found " ++ v.text)
  | notConnective {s : String} (hk : ∀ e ∈ entries, ¬ IsUnknownKey e.1)
      (ho : entries.lookup "operation" = some (.string s)) (hand : s ≠ "&&") (hor : s ≠ "||") :
      FirstFault entries (.mismatch .connective (.string s))
        ("expected && or ||, found " ++ (Json.string s).text)
  | noConditions {connective : Connective} (hk : ∀ e ∈ entries, ¬ IsUnknownKey e.1)
      (ho : entries.lookup "operation" = some (.ofToken connective))
      (hc : entries.lookup "conditions" = none) :
      FirstFault entries (.mismatch .noConditions (.object entries))
        ("missing group 'conditions', found " ++ (Json.object entries).text)
  | notList {connective : Connective} {v : Json} (hk : ∀ e ∈ entries, ¬ IsUnknownKey e.1)
      (ho : entries.lookup "operation" = some (.ofToken connective))
      (hc : entries.lookup "conditions" = some v) (hv : ∀ items, v ≠ .array items) :
      FirstFault entries (.mismatch .conditions v) ("expected a list of conditions, found " ++ v.text)
  | member {connective : Connective} {before after : List Json} {v : Json} {e : Malformed}
      (hw : WellHeaded entries connective (before ++ v :: after))
      (hb : ∀ u ∈ before, u.refusal? = none) (hv : v.refusal? = some e) :
      FirstFault entries e e.payload
  | empty {connective : Connective} (hw : WellHeaded entries connective []) :
      FirstFault entries .emptyGroup "a condition group needs at least one condition"

section Reading

open Outcome

variable {entries : List (String × Json)}

theorem Json.error?_ofJson (v : Json) : error? (Member.ofJson v) = v.refusal? := by
  cases v with
  | object entries => rw [Member.ofJson, refusal?, Group.ofJson, error?_map]
  | _ =>
    rw [Member.ofJson_of_not_object (by simp), error?_map]
    rfl

theorem membersOfItems_eq_mapM (items : List Json) :
    membersOfItems items = items.mapM Member.ofJson := by
  induction items with
  | nil => rfl
  | cons v vs ih => rw [membersOfItems, List.mapM_cons, ih]

theorem membersOfEntries_eq (whole : Json) (entries : List (String × Json)) :
    membersOfEntries whole entries =
      match entries.lookup "conditions" with
      | some (.array items) => membersOfItems items
      | some v => .error (.mismatch .conditions v)
      | none => .error (.mismatch .noConditions whole) := by
  induction entries with
  | nil => rfl
  | cons e entries ih =>
    obtain ⟨key, v⟩ := e
    by_cases hk : key = "conditions"
    · subst hk
      rw [List.lookup_cons_self]
      cases v <;> simp [membersOfEntries]
    · have hb : ("conditions" == key) = false := by simpa using Ne.symm hk
      rw [membersOfEntries_of_ne whole v entries hk, ih, List.lookup_cons, hb]

theorem Group.error?_ofList (connective : Connective) (ms : List Member) :
    error? (Group.ofList connective ms) = if ms = [] then some .emptyGroup else none := by
  cases ms <;> rfl

/-- There are no connectives but these two. -/
theorem Connective.ofString?_eq_none_iff (s : String) :
    (Token.ofString? s : Option Connective) = none ↔ s ≠ "&&" ∧ s ≠ "||" := by
  constructor
  · intro h
    constructor
    · rintro rfl
      cases h
    · rintro rfl
      cases h
  · rintro ⟨hand, hor⟩
    cases hc : (Token.ofString? s : Option Connective) with
    | none => rfl
    | some connective =>
      have hs := Token.token_of_ofString? hc
      cases connective with
      | and => exact (hand hs.symm).elim
      | or => exact (hor hs.symm).elim

/-- With the keys known, the operation is looked at before the members. -/
theorem Group.ofJson_of_known (hk : ∀ e ∈ entries, ¬ IsUnknownKey e.1) :
    Group.ofJson (.object entries) =
      (match entries.lookup "operation" with
        | some word => word.expectToken .connective
        | none => .error (.mismatch .noOperation (.object entries))) >>= fun connective =>
      membersOfEntries (.object entries) entries >>= Group.ofList connective := by
  have hn : unknownKey? entries = none :=
    (unknownKey?_eq_none_iff entries).mpr fun e he => (not_isUnknownKey_iff e.1).mp (hk e he)
  rw [Group.ofJson, Group.ofEntries, hn]
  cases entries.lookup "operation" <;> rfl

theorem Group.ofJson_of_wellHeaded {connective : Connective} {items : List Json}
    (hw : WellHeaded entries connective items) :
    Group.ofJson (.object entries) = items.mapM Member.ofJson >>= Group.ofList connective := by
  rw [Group.ofJson_of_known hw.keys, hw.operation, membersOfEntries_eq, hw.conditions,
    ← membersOfItems_eq_mapM]
  simp only [Json.expectToken_ofToken, ok_bind]

/-- The first member that is refused decides. A group without members is refused last. -/
theorem Group.error?_ofJson_of_wellHeaded {connective : Connective} {items : List Json}
    (hw : WellHeaded entries connective items) :
    error? (Group.ofJson (.object entries)) =
      (items.findSome? Json.refusal?).or (if items = [] then some .emptyGroup else none) := by
  have hm : items.findSome? Json.refusal? = error? (items.mapM Member.ofJson) := by
    rw [error?_mapM]
    simp only [Json.error?_ofJson]
  rw [Group.ofJson_of_wellHeaded hw, hm]
  cases hs : items.mapM Member.ofJson with
  | error e => rfl
  | ok ms =>
    have hl : ms = [] ↔ items = [] := by
      cases items with
      | nil =>
        cases hs
        simp
      | cons v vs =>
        obtain ⟨m, ns, -, -, rfl⟩ := mapM_cons_eq_ok_iff.mp hs
        simp
    rw [ok_bind, Group.error?_ofList, error?, Option.none_or]
    simp only [hl]

theorem Malformed.payload_groupKey (key : String) (v : Json) :
    (Malformed.mismatch (.groupKey key) v).payload =
      "unexpected group key '" ++ key ++ "', found " ++ v.text := by
  have hfound : "'" ++ ", found " = "', found " := by decide
  calc (Malformed.mismatch (.groupKey key) v).payload
      = "unexpected group key '" ++ key ++ "'" ++ ", found " ++ v.text := rfl
    _ = "unexpected group key '" ++ key ++ ("'" ++ ", found ") ++ v.text :=
      congrArg (· ++ v.text) String.append_assoc
    _ = "unexpected group key '" ++ key ++ "', found " ++ v.text := by rw [hfound]

theorem FirstFault.payload_eq {e : Malformed} {text : String} (h : FirstFault entries e text) :
    e.payload = text := by
  cases h with
  | @key key h => exact Malformed.payload_groupKey key _
  | noOperation | notString | notConnective | noConditions | notList | member | empty => rfl

theorem FirstFault.ofJson_eq {e : Malformed} {text : String} (h : FirstFault entries e text) :
    Group.ofJson (.object entries) = .error e := by
  cases h with
  | key h =>
    cases hu : unknownKey? entries with
    | none =>
      obtain ⟨d, hd, hkey⟩ := List.mem_map.mp h.mem
      have hk := (unknownKey?_eq_none_iff entries).mp hu d hd
      rw [hkey] at hk
      exact ((not_isUnknownKey_iff _).mpr hk h.unknown).elim
    | some other =>
      obtain rfl := h.eq (unknownKey?_eq_some hu)
      rw [Group.ofJson, Group.ofEntries, hu]
      rfl
  | noOperation hk ho =>
    rw [Group.ofJson_of_known hk, ho]
    rfl
  | @notString v hk ho hv =>
    rw [Group.ofJson_of_known hk, ho]
    cases v with
    | string s => exact (hv s rfl).elim
    | _ => rfl
  | @notConnective s hk ho hand hor =>
    have hn := (Connective.ofString?_eq_none_iff s).mpr ⟨hand, hor⟩
    rw [Group.ofJson_of_known hk, ho]
    simp only [Json.expectToken, Json.expectString, ok_bind, hn, error_bind]
  | noConditions hk ho hc =>
    rw [Group.ofJson_of_known hk, ho, membersOfEntries_eq, hc]
    simp only [Json.expectToken_ofToken, ok_bind, error_bind]
  | @notList connective v hk ho hc hv =>
    rw [Group.ofJson_of_known hk, ho, membersOfEntries_eq, hc]
    simp only [Json.expectToken_ofToken, ok_bind]
    cases v with
    | array items => exact (hv items rfl).elim
    | _ => rfl
  | @member connective before after v e hw hb hv =>
    have hf : (before ++ v :: after).findSome? Json.refusal? = some e := by
      rw [List.findSome?_append, List.findSome?_eq_none_iff.mpr hb, List.findSome?_cons, hv]
      rfl
    rw [← error?_eq_some_iff, Group.error?_ofJson_of_wellHeaded hw, hf]
    rfl
  | empty hw =>
    rw [← error?_eq_some_iff, Group.error?_ofJson_of_wellHeaded hw]
    rfl

theorem FirstFault.of_ofJson_eq {e : Malformed}
    (h : Group.ofJson (.object entries) = .error e) : FirstFault entries e e.payload := by
  -- Each fault is looked for in its turn; where it is there, it is the one that is reported.
  have hreport {e' : Malformed} {text : String} (hf : FirstFault entries e' text) :
      FirstFault entries e e.payload := by
    have he := hf.ofJson_eq
    rw [h] at he
    obtain rfl := Except.error.inj he
    rw [hf.payload_eq]
    exact hf
  cases hu : unknownKey? entries with
  | some key => exact hreport (.key (unknownKey?_eq_some hu))
  | none =>
    have hk : ∀ d ∈ entries, ¬ IsUnknownKey d.1 := fun d hd =>
      (not_isUnknownKey_iff d.1).mpr ((unknownKey?_eq_none_iff entries).mp hu d hd)
    cases ho : entries.lookup "operation" with
    | none => exact hreport (.noOperation hk ho)
    | some word =>
      by_cases hs : ∃ s, word = .string s
      · obtain ⟨s, rfl⟩ := hs
        cases hc : (Token.ofString? s : Option Connective) with
        | none =>
          obtain ⟨hand, hor⟩ := (Connective.ofString?_eq_none_iff s).mp hc
          exact hreport (.notConnective hk ho hand hor)
        | some connective =>
          obtain rfl := Token.token_of_ofString? hc
          cases hl : entries.lookup "conditions" with
          | none => exact hreport (.noConditions hk ho hl)
          | some v =>
            by_cases hv : ∃ items, v = .array items
            · obtain ⟨items, rfl⟩ := hv
              have hw : WellHeaded entries connective items := ⟨hk, ho, hl⟩
              have he := error?_eq_some_iff.mpr h
              rw [Group.error?_ofJson_of_wellHeaded hw, Option.or_eq_some_iff] at he
              rcases he with he | ⟨-, he⟩
              · obtain ⟨before, v, after, rfl, hv, hb⟩ := List.findSome?_eq_some_iff.mp he
                exact .member hw hb hv
              · split at he
                next hi =>
                  subst hi
                  obtain rfl := Option.some.inj he
                  exact .empty hw
                next => cases he
            · exact hreport (.notList hk ho hl fun items hi => hv ⟨items, hi⟩)
      · exact hreport (.notString hk ho fun s hw => hs ⟨s, hw⟩)

end Reading

/-- The element is inside the value, below well-headed groups, and everything before it in these
groups is read. -/
inductive Json.Reaches : Json → Json → Prop
  | self (v : Json) : Reaches v v
  | member {entries : List (String × Json)} {connective : Connective} {before after : List Json}
      {v u : Json} (hw : WellHeaded entries connective (before ++ v :: after))
      (hb : ∀ w ∈ before, w.refusal? = none) (hr : Reaches v u) : Reaches (.object entries) u

/-- A refused element is the reason why everything around it is refused. -/
theorem Json.Reaches.refusal?_eq {v u : Json} {e : Malformed} (h : Reaches v u)
    (hu : u.refusal? = some e) : v.refusal? = some e := by
  induction h with
  | self v => exact hu
  | member hw hb _ ih =>
    have hf : FirstFault _ e _ := .member hw hb (ih hu)
    rw [Json.refusal?, hf.ofJson_eq]
    rfl

/-- A group is refused for its first fault and for nothing after it. An unknown key comes before
everything else, then the operation, then the list of conditions, and then the first member that is
refused on its own. Below any number of groups an element is still refused for its own fault. -/
theorem Group.ofJson_first_fault :
    (∀ v : Json, (∀ entries, v ≠ .object entries) → ∃ e, Group.ofJson v = .error e ∧
      e = .mismatch .group v ∧ e.payload = "expected a condition group object, found " ++ v.text) ∧
    (∀ entries : List (String × Json), (∃ d ∈ entries, IsUnknownKey d.1) →
      ∃ key e, IsLeastUnknown entries key ∧ Group.ofJson (.object entries) = .error e ∧
        e = .mismatch (.groupKey key) (.object entries) ∧
        e.payload = "unexpected group key '" ++ key ++ "', found " ++ (Json.object entries).text) ∧
    (∀ (entries : List (String × Json)) (e : Malformed) (text : String),
      Group.ofJson (.object entries) = .error e ∧ e.payload = text ↔ FirstFault entries e text) ∧
    (∀ (entries : List (String × Json)) (u : Json) (e : Malformed),
      Json.Reaches (.object entries) u → u.refusal? = some e →
        Group.ofJson (.object entries) = .error e) := by
  refine ⟨?_, ?_, ?_, ?_⟩
  · intro v hv
    refine ⟨.mismatch .group v, ?_, rfl, rfl⟩
    cases v with
    | object entries => exact (hv entries rfl).elim
    | _ => rfl
  · rintro entries ⟨d, hd, hu⟩
    cases hk : unknownKey? entries with
    | none =>
      have hd := (unknownKey?_eq_none_iff entries).mp hk d hd
      exact ((not_isUnknownKey_iff d.1).mpr hd hu).elim
    | some key =>
      have hl := unknownKey?_eq_some hk
      have hf := FirstFault.key hl
      exact ⟨key, _, hl, hf.ofJson_eq, rfl, hf.payload_eq⟩
  · intro entries e text
    constructor
    · rintro ⟨he, rfl⟩
      exact FirstFault.of_ofJson_eq he
    · intro hf
      exact ⟨hf.ofJson_eq, hf.payload_eq⟩
  · intro entries u e hr hu
    exact Outcome.error?_eq_some_iff.mp (hr.refusal?_eq hu)

/-- The least key is named although the list is malformed too, and `true` is refused two groups down
although the object after it is refused too. -/
theorem Group.ofJson_first_fault_nested :
    (∃ e, Group.ofJson .null = .error e ∧
      e.payload = "expected a condition group object, found null") ∧
    (∃ e, Group.ofJson (.object [("conditions", .null), ("y", .null), ("é", .null)]) = .error e ∧
      e.payload = "unexpected group key 'y', found " ++
        (Json.object [("conditions", .null), ("y", .null), ("é", .null)]).text) ∧
    Group.ofJson (.object [("conditions", .array [.array [.string "field", .array [.string "a"]],
        .object [("conditions", .array [.bool true, .object []]), ("operation", .string "||")]]),
      ("operation", .string "&&")]) = .error (.mismatch .condition (.bool true)) := by
  refine ⟨?_, ?_, Group.ofJson_first_fault.2.2.2 _ (.bool true) _ ?_ rfl⟩
  · obtain ⟨e, he, -, hp⟩ := Group.ofJson_first_fault.1 .null (by simp)
    exact ⟨e, he, hp⟩
  · have hleast : IsLeastUnknown [("conditions", .null), ("y", .null), ("é", .null)] "y" := by
      refine ⟨by simp, by simp [IsUnknownKey], ?_⟩
      have hle : utf8 "y" ≤ utf8 "é" := by decide
      simpa [IsUnknownKey] using hle
    exact ⟨_, (Group.ofJson_first_fault.2.2.1 _ _ _).mpr (.key hleast)⟩
  · have hout : WellHeaded [("conditions", .array ([.array [.string "field", .array [.string "a"]]] ++
        .object [("conditions", .array [.bool true, .object []]), ("operation", .string "||")] :: [])),
        ("operation", .string "&&")] .and _ := ⟨by simp [IsUnknownKey], rfl, rfl⟩
    have hin : WellHeaded [("conditions", .array ([] ++ .bool true :: [.object []])),
        ("operation", .string "||")] .or _ := ⟨by simp [IsUnknownKey], rfl, rfl⟩
    exact .member hout (List.forall_mem_singleton.mpr rfl) (.member hin (by simp) (.self _))

end AccessRules
