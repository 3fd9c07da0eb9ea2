import AccessRules.Proofs.Rule.Nesting

/-! The text of a group shows the tree that it was made from. -/
namespace AccessRules

mutual

/-- The same tree: groups opposite groups, of equally many members and with the same connective
where it shows, and opposite conditions with one text. -/
def Member.SameTree : Member → Member → Prop
  | .condition c, .condition d => ∃ s, c.rule = .ok s ∧ d.rule = .ok s
  | .group p ms, .group q ns =>
    ms.length = ns.length ∧ (2 ≤ ms.length → p = q) ∧ ms.SameTrees ns
  | _, _ => False

def Members.SameTrees : Members → Members → Prop
  | .last m, .last n => m.SameTree n
  | .cons m ms, .cons n ns => m.SameTree n ∧ ms.SameTrees ns
  | _, _ => False

end

theorem Members.one_le_length (ms : Members) : 1 ≤ ms.length := by
  cases ms <;> simp [length]

theorem Condition.nests_rule {c : Condition} {s : String} (hp : c.Plain) (h : c.rule = .ok s) :
    Nests s 0 0 := by
  obtain ⟨hr, rfl⟩ := (c.rule_eq_ok_iff s).mp h
  rw [← text_meaning hr.1]
  exact Meaning.nests_text (legible_meaning hp hr)

theorem Connective.nests_separator (p : Connective) : Nests p.separator 0 0 := by
  cases p <;> exact fun _ => rfl

theorem nests_parenthesized {s : String} (hs : Nests s 0 0) : Nests ("(" ++ s ++ ")") 0 0 :=
  .append (.append (fun _ => rfl) hs.deeper) fun _ => rfl

mutual

theorem Member.nests_rule {m : Member} {s : String} (hp : ∀ c ∈ m.conditions, c.Plain)
    (h : m.rule = .ok s) : Nests s 0 0 := by
  match m with
  | .condition c =>
    rw [Member.rule_condition] at h
    exact Condition.nests_rule (hp c List.mem_cons_self) h
  | .group p ms =>
    rw [Member.rule_group] at h
    exact Members.nests_render hp h

theorem Members.nests_render {p : Connective} {ms : Members} {s : String}
    (hp : ∀ c ∈ ms.conditions, c.Plain) (h : (ms.render p).result = .ok s) : Nests s 0 0 := by
  match ms with
  | .last m =>
    obtain ⟨t, ht, rfl⟩ := (Members.render_last_eq_ok_iff p m s).mp h
    exact nests_parenthesized (Member.nests_rule hp ht)
  | .cons m ms =>
    obtain ⟨t, u, ht, hu, rfl⟩ := (Members.render_cons_eq_ok_iff p m ms s).mp h
    rw [Members.conditions, List.forall_mem_append] at hp
    have hm := nests_parenthesized (Member.nests_rule hp.1 ht)
    exact (hm.append p.nests_separator).append (Members.nests_render hp.2 hu)

end

theorem toList_parenthesized (s t : String) :
    ("(" ++ s ++ ")" ++ t).toList = '(' :: (s.toList ++ ')' :: t.toList) := by
  simp

/-- Texts that start with balanced text in parentheses are equal in what stands inside and after. -/
theorem Nests.parenthesized_cancel {s t a b : String} (hs : Nests s 0 0) (ht : Nests t 0 0)
    (h : "(" ++ s ++ ")" ++ a = "(" ++ t ++ ")" ++ b) : s = t ∧ a = b := by
  have hl := congrArg String.toList h
  rw [toList_parenthesized, toList_parenthesized] at hl
  obtain ⟨hst, hab⟩ := hs.cancel ht (List.cons.inj hl).2
  exact ⟨hst, String.toList_inj.mp hab⟩

theorem Meaning.text_within (f : Field) (unit : TimeUnit) (x : Double) :
    (⟨f, .within unit x⟩ : Meaning).text =
      "(" ++ ("request.time.toMillis() - " ++ (f.called (some "seconds")).text ++ "() * 1000") ++
        ")" ++ (" < duration.value(" ++ x.text ++ ", " ++ stringRule unit.code ++ ")") := by
  have ho : "(request.time.toMillis() - " = "(" ++ "request.time.toMillis() - " := rfl
  have hc : "() * 1000) < duration.value(" = "() * 1000" ++ ")" ++ " < duration.value(" := rfl
  change "(request.time.toMillis() - " ++ _ ++
    ("() * 1000) < duration.value(" ++ _ ++ _ ++ _ ++ _) = _
  rw [ho, hc]
  simp only [String.append_assoc]
  rfl

/-- A condition that starts with a parenthesis goes on with a comparison where it is closed. -/
theorem Meaning.comparison_of_parenthesized {m : Meaning} (hm : m.Legible) {t u : String}
    (ht : Nests t 0 0) (h : m.text = "(" ++ t ++ ")" ++ u) : u.toList[1]? = some '<' := by
  obtain ⟨f, a⟩ := m
  obtain ⟨hf, ha⟩ := hm
  have ho : a.opening = Assertion.openingAt '(' := by
    obtain ⟨c, hc, ho⟩ := first_text hf.1
    rw [h, first_append (first_append (first_append rfl t) ")") u] at hc
    obtain rfl := Option.some.inj hc
    exact ho
  cases a with
  | within unit x =>
    have hs : Nests (f.called (some "seconds")).text 0 0 :=
      Field.nests_text (hf.called (.within unit x))
    have hx : Nests ("request.time.toMillis() - " ++ (f.called (some "seconds")).text ++
        "() * 1000") 0 0 :=
      .append (.append (fun _ => rfl) hs) fun _ => rfl
    rw [Meaning.text_within] at h
    obtain ⟨-, rfl⟩ := hx.parenthesized_cancel ht h
    simp only [String.append_assoc, String.toList_append]
    rfl
  | isInteger | isFloat => exact absurd ho (by decide)
  | _ =>
    have hne : "" ≠ Assertion.openingAt '(' := by decide
    exact absurd ho hne

theorem Connective.separator_cancel {p q : Connective} {a b : String}
    (h : p.separator ++ a = q.separator ++ b) : p = q ∧ a = b := by
  have ha : Connective.and.separator.toList = [' ', '&', '&', ' '] := rfl
  have ho : Connective.or.separator.toList = [' ', '|', '|', ' '] := rfl
  have hl := congrArg String.toList h
  rw [String.toList_append, String.toList_append] at hl
  cases p <;> cases q <;> simp_all

theorem Connective.separator_append_ne_empty (p : Connective) (a : String) :
    p.separator ++ a ≠ "" := by
  intro h
  have hl := congrArg String.toList h
  rw [String.toList_append] at hl
  cases p <;> cases hl

section Render

variable {p : Connective} {m : Member} {ms : Members} {s : String}

theorem Members.exists_of_render_last (h : ((Members.last m).render p).result = .ok s) :
    ∃ t, m.rule = .ok t ∧ s = "(" ++ t ++ ")" ++ "" := by
  obtain ⟨t, ht, rfl⟩ := (Members.render_last_eq_ok_iff p m s).mp h
  exact ⟨t, ht, String.append_empty.symm⟩

theorem Members.exists_of_render_cons (h : ((Members.cons m ms).render p).result = .ok s) :
    ∃ t u, m.rule = .ok t ∧ (ms.render p).result = .ok u ∧
      s = "(" ++ t ++ ")" ++ (p.separator ++ u) := by
  obtain ⟨t, u, ht, hu, rfl⟩ := (Members.render_cons_eq_ok_iff p m ms s).mp h
  exact ⟨t, u, ht, hu, String.append_assoc ..⟩

end Render

theorem Member.rule_cancel {m n : Member} {t u a b : String} (hm : ∀ c ∈ m.conditions, c.Plain)
    (hn : ∀ c ∈ n.conditions, c.Plain) (ht : m.rule = .ok t) (hu : n.rule = .ok u)
    (h : "(" ++ t ++ ")" ++ a = "(" ++ u ++ ")" ++ b) : t = u ∧ a = b :=
  (Member.nests_rule hm ht).parenthesized_cancel (Member.nests_rule hn hu) h

/-- The text of a group starts with a member in parentheses, and ends there or goes on with the
connective. -/
theorem Members.render_eq_parenthesized {p : Connective} {ms : Members} {s : String}
    (hp : ∀ c ∈ ms.conditions, c.Plain) (h : (ms.render p).result = .ok s) :
    ∃ t a, Nests t 0 0 ∧ s = "(" ++ t ++ ")" ++ a ∧ a.toList[1]? ≠ some '<' := by
  match ms with
  | .last m =>
    obtain ⟨t, ht, hs⟩ := Members.exists_of_render_last h
    exact ⟨t, "", Member.nests_rule hp ht, hs, by simp⟩
  | .cons m ms =>
    obtain ⟨t, u, ht, hu, hs⟩ := Members.exists_of_render_cons h
    rw [Members.conditions, List.forall_mem_append] at hp
    refine ⟨t, p.separator ++ u, Member.nests_rule hp.1 ht, hs, ?_⟩
    rw [String.toList_append]
    cases p <;> exact fun h => absurd (Option.some.inj h) (by decide)

/-- No condition is written like a group. -/
theorem Condition.rule_ne_render {c : Condition} {p : Connective} {ms : Members} {s : String}
    (hc : c.Plain) (hp : ∀ d ∈ ms.conditions, d.Plain) (h : c.rule = .ok s) :
    (ms.render p).result ≠ .ok s := by
  intro hs
  obtain ⟨hr, rfl⟩ := (c.rule_eq_ok_iff s).mp h
  obtain ⟨t, a, ht, ha, hne⟩ := Members.render_eq_parenthesized hp hs
  rw [← text_meaning hr.1] at ha
  exact hne (Meaning.comparison_of_parenthesized (legible_meaning hc hr) ht ha)

mutual

theorem Member.sameTree_of_rule_eq {m n : Member} {s : String} (hm : ∀ c ∈ m.conditions, c.Plain)
    (hn : ∀ c ∈ n.conditions, c.Plain) (h : m.rule = .ok s) (h' : n.rule = .ok s) :
    m.SameTree n := by
  match m, n with
  | .condition c, .condition d =>
    rw [Member.rule_condition] at h h'
    exact ⟨s, h, h'⟩
  | .condition c, .group q ns =>
    rw [Member.rule_condition] at h
    rw [Member.rule_group] at h'
    exact Condition.rule_ne_render (hm c List.mem_cons_self) hn h h'
  | .group p ms, .condition d =>
    rw [Member.rule_group] at h
    rw [Member.rule_condition] at h'
    exact Condition.rule_ne_render (hn d List.mem_cons_self) hm h' h
  | .group p ms, .group q ns =>
    rw [Member.rule_group] at h h'
    exact Members.sameTrees_of_render_eq hm hn h h'

theorem Members.sameTrees_of_render_eq {p q : Connective} {ms ns : Members} {s : String}
    (hm : ∀ c ∈ ms.conditions, c.Plain) (hn : ∀ c ∈ ns.conditions, c.Plain)
    (h : (ms.render p).result = .ok s) (h' : (ns.render q).result = .ok s) :
    ms.length = ns.length ∧ (2 ≤ ms.length → p = q) ∧ ms.SameTrees ns := by
  match ms, ns with
  | .last m, .last n =>
    obtain ⟨t, ht, hs⟩ := Members.exists_of_render_last h
    obtain ⟨u, hu, hs'⟩ := Members.exists_of_render_last h'
    obtain ⟨rfl, -⟩ := Member.rule_cancel hm hn ht hu (hs.symm.trans hs')
    refine ⟨rfl, ?_, Member.sameTree_of_rule_eq hm hn ht hu⟩
    intro hl
    exact absurd hl (by simp [Members.length])
  | .last m, .cons n ns =>
    obtain ⟨t, ht, hs⟩ := Members.exists_of_render_last h
    obtain ⟨u, v, hu, hv, hs'⟩ := Members.exists_of_render_cons h'
    rw [Members.conditions, List.forall_mem_append] at hn
    obtain ⟨-, he⟩ := Member.rule_cancel hm hn.1 ht hu (hs.symm.trans hs')
    exact absurd he.symm (q.separator_append_ne_empty v)
  | .cons m ms, .last n =>
    obtain ⟨t, v, ht, hv, hs⟩ := Members.exists_of_render_cons h
    obtain ⟨u, hu, hs'⟩ := Members.exists_of_render_last h'
    rw [Members.conditions, List.forall_mem_append] at hm
    obtain ⟨-, he⟩ := Member.rule_cancel hm.1 hn ht hu (hs.symm.trans hs')
    exact absurd he (p.separator_append_ne_empty v)
  | .cons m ms, .cons n ns =>
    obtain ⟨t, v, ht, hv, hs⟩ := Members.exists_of_render_cons h
    obtain ⟨u, w, hu, hw, hs'⟩ := Members.exists_of_render_cons h'
    rw [Members.conditions, List.forall_mem_append] at hm hn
    obtain ⟨rfl, he⟩ := Member.rule_cancel hm.1 hn.1 ht hu (hs.symm.trans hs')
    obtain ⟨rfl, rfl⟩ := Connective.separator_cancel he
    obtain ⟨hl, -, hms⟩ := Members.sameTrees_of_render_eq hm.2 hn.2 hv hw
    refine ⟨?_, fun _ => rfl, Member.sameTree_of_rule_eq hm.1 hn.1 ht hu, hms⟩
    rw [Members.length, Members.length, hl]

end

mutual

theorem Member.rule_eq_of_sameTree {m n : Member} {s : String} (ht : m.SameTree n)
    (h : m.rule = .ok s) : n.rule = .ok s := by
  match m, n with
  | .condition c, .condition d =>
    obtain ⟨t, hc, hd⟩ := ht
    rw [Member.rule_condition, hc] at h
    rw [Member.rule_condition, hd, h]
  | .group p ms, .group q ns =>
    obtain ⟨-, hp, hms⟩ := ht
    rw [Member.rule_group] at h ⊢
    exact Members.render_eq_of_sameTrees hp hms h
  | .condition _, .group _ _ => exact ht.elim
  | .group _ _, .condition _ => exact ht.elim

theorem Members.render_eq_of_sameTrees {p q : Connective} {ms ns : Members} {s : String}
    (hp : 2 ≤ ms.length → p = q) (ht : ms.SameTrees ns) (h : (ms.render p).result = .ok s) :
    (ns.render q).result = .ok s := by
  match ms, ns with
  | .last m, .last n =>
    obtain ⟨t, hm, rfl⟩ := (Members.render_last_eq_ok_iff p m s).mp h
    have hn := Member.rule_eq_of_sameTree ht hm
    exact (Members.render_last_eq_ok_iff q n _).mpr ⟨t, hn, rfl⟩
  | .cons m ms, .cons n ns =>
    have hl : 2 ≤ (Members.cons m ms).length := Nat.succ_le_succ ms.one_le_length
    obtain rfl := hp hl
    obtain ⟨t, u, hm, hms, rfl⟩ := (Members.render_cons_eq_ok_iff p m ms s).mp h
    have hn := Member.rule_eq_of_sameTree ht.1 hm
    have hns := Members.render_eq_of_sameTrees (fun _ => rfl) ht.2 hms
    exact (Members.render_cons_eq_ok_iff p n ns _).mpr ⟨t, u, hn, hns, rfl⟩
  | .last _, .cons _ _ => exact ht.elim
  | .cons _ _, .last _ => exact ht.elim

end

/-- Plain groups have the same text exactly if they are the same tree. -/
theorem Group.rule_eq_iff_sameTree {g h : Group} {s : String} (hg : g.Plain) (hh : h.Plain)
    (hs : g.rule = .ok s) : h.rule = .ok s ↔ g.toMember.SameTree h.toMember := by
  rw [Group.rule_eq] at hs
  constructor
  · intro hs'
    rw [Group.rule_eq] at hs'
    exact Member.sameTree_of_rule_eq hg hh hs hs'
  · intro ht
    rw [Group.rule_eq]
    exact Member.rule_eq_of_sameTree ht hs

/-- A condition whose string looks like the end of a group, and a nested group of one member whose
connective does not show. -/
theorem Group.rule_eq_iff_sameTree_deceptive :
    let time : Condition :=
      ⟨.here ⟨[.literal "t"], by decide⟩, .within .days (.finite ⟨false, .zero⟩)⟩
    let text : Condition :=
      ⟨.here ⟨[.param "a"], by decide⟩, .compareString .eq (.string ") && (")⟩
    let size (t : Test) : Condition := ⟨.here ⟨[.literal "b"], by decide⟩, t⟩
    let g : Group := ⟨.and, .cons (.condition time) (.cons (.group .or (.last (.condition text)))
      (.last (.condition (size (.mapSize .le (.finite ⟨true, .zero⟩))))))⟩
    let h : Group := ⟨.and, .cons (.condition time) (.cons (.group .and (.last (.condition text)))
      (.last (.condition (size (.listSize .le (.finite ⟨false, .zero⟩))))))⟩
    g.Plain ∧ h.Plain ∧ (∃ s, g.rule = .ok s ∧ h.rule = .ok s) ∧
      g.toMember.SameTree h.toMember := by
  intro time text size g h
  have hg : g.Plain := by decide
  have hh : h.Plain := by decide
  obtain ⟨s, hgs, hhs⟩ : ∃ s, g.rule = .ok s ∧ h.rule = .ok s := ⟨_, rfl, rfl⟩
  exact ⟨hg, hh, ⟨s, hgs, hhs⟩, (Group.rule_eq_iff_sameTree hg hh hgs).mp hhs⟩

end AccessRules
