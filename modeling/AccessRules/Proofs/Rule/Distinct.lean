import AccessRules.Proofs.Rule.Decoding

/-! Conditions with the same text say the same thing. -/
namespace AccessRules

namespace Assertion

theorem decodes_comparison :
    Decodes (Token.token : Comparison → String) (fun _ => True) (Stops (· != ' ')) := by
  apply Decodes.of_run
  · intro op _
    have h : (Token.token op).toList.all (· != ' ') = true := by cases op <;> rfl
    exact List.all_eq_true.mp h
  · exact fun _ _ _ _ h => Token.token_inj h

theorem decodes_setOperation :
    Decodes (Token.token : SetOperation → String) (fun _ => True) (Stops (· != '(')) := by
  apply Decodes.of_run
  · intro op _
    have h : (Token.token op).toList.all (· != '(') = true := by cases op <;> rfl
    exact List.all_eq_true.mp h
  · exact fun _ _ _ _ h => Token.token_inj h

theorem comparisonText_inj {op op' : Comparison} {right right' : String}
    (h : comparisonText op right = comparisonText op' right') : op = op' ∧ right = right' := by
  simp only [comparisonText, String.append_assoc] at h
  obtain ⟨rfl, hr⟩ := decodes_comparison trivial trivial (stops_append rfl rfl _)
    (stops_append rfl rfl _) ((String.append_right_inj _).mp h)
  exact ⟨rfl, (String.append_right_inj _).mp hr⟩

theorem setClosing_inj {op op' : SetOperation} {items items' : List Literal}
    (hi : ∀ l ∈ items, l.toScalar.Legible) (hi' : ∀ l ∈ items', l.toScalar.Legible)
    (h : setClosing op items = setClosing op' items') : op = op' ∧ items = items' := by
  simp only [setClosing, String.append_assoc, String.append_right_inj] at h
  obtain ⟨rfl, hr⟩ := decodes_setOperation trivial trivial (stops_append rfl rfl _)
    (stops_append rfl rfl _) h
  rw [String.append_right_inj] at hr
  obtain ⟨rfl, -⟩ := Literal.decodes_listText hi hi' trivial trivial hr
  exact ⟨rfl, rfl⟩

/-- The character after the field or the method's name. -/
def next : Assertion → Option Char
  | .isTrue => none
  | .compare .. | .oneOf _ => some ' '
  | .isInteger | .isFloat => some ')'
  | .element .. => some '['
  | _ => some '('

theorem first_closing (a : Assertion) (field : String) : first (a.closing field) = a.next := by
  cases a with
  | isTrue => rfl
  | compare => exact first_append (first_append (first_append rfl _) _) _
  | oneOf | isInteger | isFloat | size | keys | values | set => exact first_append rfl _
  | distance | element => exact first_append (first_append (first_append rfl _) _) _
  | within =>
    have hw : first "() * 1000) < duration.value(" = some '(' := rfl
    exact first_append (first_append (first_append (first_append hw _) _) _) _

theorem isSome_method_iff (a : Assertion) : a.method.isSome = true ↔ a.next = some '(' := by
  cases a <;> simp [method, next]

theorem stopsPath_closing (a : Assertion) (field : String) : StopsPath (a.closing field) := by
  have hf := first_closing a field
  cases a with
  | isTrue => exact stopsPath_empty
  | element index op value =>
    change StopsPath ("[" ++ toString index.toNat ++ "]" ++ _)
    rw [String.append_assoc, String.append_assoc]
    exact stopsPath_index _ _
  | _ => exact stopsPath_of_first hf rfl (by decide) (by decide)

theorem comparisonText_ne_choice (op : Comparison) (right items : String) :
    comparisonText op right ≠ " in " ++ items := by
  intro h
  have hc : " in " = " " ++ "in " := rfl
  rw [hc] at h
  simp only [comparisonText, String.append_assoc, String.append_right_inj] at h
  have hi : first ("in " ++ items) = some 'i' := first_append rfl items
  have ho : ∃ c, first (Token.token op) = some c ∧ c ≠ 'i' := by
    cases op <;> exact ⟨_, rfl, by decide⟩
  obtain ⟨c, hc, hne⟩ := ho
  exact ne_of_first (first_append hc _) hi hne h

theorem window_inj {unit unit' : TimeUnit} {x y : Double} {field field' : String}
    (hx : x.IsSettled) (hy : y.IsSettled)
    (h : (within unit x).closing field = (within unit' y).closing field') :
    unit = unit' ∧ x = y := by
  have hq (unit : TimeUnit) : '"' ∉ unit.code.toList := by cases unit <;> decide
  change "() * 1000) < duration.value(" ++ _ ++ _ ++ _ ++ _ =
    "() * 1000) < duration.value(" ++ _ ++ _ ++ _ ++ _ at h
  simp only [String.append_assoc, String.append_right_inj] at h
  obtain ⟨rfl, hu⟩ := decodes_number hx hy (stops_append rfl rfl _) (stops_append rfl rfl _) h
  rw [String.append_right_inj] at hu
  obtain ⟨hc, -⟩ := decodes_quoted (hq unit) (hq unit') trivial trivial hu
  exact ⟨TimeUnit.code_inj hc, rfl⟩

theorem distance_inj {t t' : Target} {op op' : Comparison} {x y : Double} {field field' : String}
    (ha : (distance t op x).Legible) (hb : (distance t' op' y).Legible)
    (h : (distance t op x).closing field = (distance t' op' y).closing field') :
    t = t' ∧ op = op' ∧ x = y := by
  have hs (r : String) : StopsPath (")" ++ r) :=
    stopsPath_of_first (first_append rfl r) rfl (by decide) (by decide)
  change "(" ++ _ ++ ")" ++ _ = "(" ++ _ ++ ")" ++ _ at h
  simp only [String.append_assoc, String.append_right_inj] at h
  obtain ⟨rfl, hc⟩ := Target.decodes_text ha.1 hb.1 (hs _) (hs _) h
  rw [String.append_right_inj] at hc
  obtain ⟨rfl, hx⟩ := comparisonText_inj hc
  exact ⟨rfl, rfl, decodes_number.eq_of_text_eq (stops_empty _) ha.2 hb.2 hx⟩

theorem element_inj {i j : UInt64} {op op' : Comparison} {v w : Scalar} {field field' : String}
    (hv : v.Legible) (hw : w.Legible)
    (h : (element i op v).closing field = (element j op' w).closing field') :
    i = j ∧ op = op' ∧ v = w := by
  change "[" ++ _ ++ "]" ++ _ = "[" ++ _ ++ "]" ++ _ at h
  simp only [String.append_assoc, String.append_right_inj] at h
  obtain ⟨rfl, hc⟩ := decodes_index trivial trivial (stops_append rfl rfl _)
    (stops_append rfl rfl _) h
  rw [String.append_right_inj] at hc
  obtain ⟨rfl, hx⟩ := comparisonText_inj hc
  exact ⟨rfl, rfl, Scalar.text_inj hv hw hx⟩

theorem eq_of_closing_eq {a b : Assertion} {field field' : String} (ha : a.Legible)
    (hb : b.Legible) (ho : a.opening = b.opening) (hm : a.method = b.method)
    (h : a.closing field = b.closing field') : a = b := by
  have hn : a.next = b.next := by rw [← first_closing a field, h, first_closing]
  cases a with
  | isTrue =>
    cases b with
    | isTrue => rfl
    | _ => simp [next] at hn
  | isInteger =>
    cases b with
    | isInteger => rfl
    | _ => simp [opening] at ho
  | isFloat =>
    cases b with
    | isFloat => rfl
    | _ => simp [opening] at ho
  | within unit x =>
    cases b with
    | within unit' y =>
      obtain ⟨rfl, rfl⟩ := window_inj ha hb h
      rfl
    | _ => simp [opening] at ho
  | compare op v =>
    cases b with
    | compare op' w =>
      obtain ⟨rfl, hv⟩ := comparisonText_inj h
      rw [Scalar.text_inj ha hb hv]
    | oneOf items => exact absurd h (comparisonText_ne_choice op _ _)
    | _ => simp [next] at hn
  | oneOf items =>
    cases b with
    | compare op w => exact absurd h.symm (comparisonText_ne_choice op _ _)
    | oneOf items' =>
      have hl := (String.append_right_inj _).mp h
      rw [Literal.decodes_listText.eq_of_text_eq trivial ha hb hl]
    | _ => simp [next] at hn
  | element i op v =>
    cases b with
    | element j op' w =>
      obtain ⟨rfl, rfl, rfl⟩ := element_inj ha hb h
      rfl
    | _ => simp [next] at hn
  | size op x =>
    cases b with
    | size op' y =>
      obtain ⟨rfl, hx⟩ := comparisonText_inj ((String.append_right_inj _).mp h)
      rw [decodes_number.eq_of_text_eq (stops_empty _) ha hb hx]
    | _ => simp [method] at hm
  | distance t op x =>
    cases b with
    | distance t' op' y =>
      obtain ⟨rfl, rfl, rfl⟩ := distance_inj ha hb h
      rfl
    | _ => simp [method] at hm
  | keys op names =>
    cases b with
    | keys op' names' =>
      obtain ⟨rfl, hl⟩ := setClosing_inj (Literal.legible_strings ha) (Literal.legible_strings hb) h
      rw [List.map_inj_right (fun _ _ => Literal.string.inj)] at hl
      rw [hl]
    | _ => simp [method] at hm
  | values op items =>
    cases b with
    | values op' items' =>
      obtain ⟨rfl, rfl⟩ := setClosing_inj ha hb h
      rfl
    | _ => simp [method] at hm
  | set op items =>
    cases b with
    | set op' items' =>
      obtain ⟨rfl, rfl⟩ := setClosing_inj ha hb h
      rfl
    | _ => simp [method] at hm

end Assertion

theorem Field.called_inj {f g : Field} {method method' : Option String}
    (hs : method.isSome = method'.isSome) (h : f.called method = g.called method') :
    f = g ∧ method = method' := by
  cases method with
  | none =>
    cases method' with
    | none => exact ⟨h, rfl⟩
    | some name' => cases hs
  | some name =>
    cases method' with
    | none => cases hs
    | some name' =>
      obtain ⟨rfl, hn⟩ := child_inj h
      exact ⟨rfl, congrArg some (Segment.literal.inj hn)⟩

/-- The text of a legible meaning determines it. -/
theorem Meaning.eq_of_text_eq {m n : Meaning} (hm : m.Legible) (hn : n.Legible)
    (h : m.text = n.text) : m = n := by
  obtain ⟨f, a⟩ := m
  obtain ⟨g, b⟩ := n
  have ho : a.opening = b.opening := by
    obtain ⟨c, hc, hac⟩ := first_text hm.1.1
    obtain ⟨d, hd, hbd⟩ := first_text hn.1.1
    rw [h, hd] at hc
    obtain rfl := Option.some.inj hc
    exact hac.trans hbd.symm
  simp only [text, ho, String.append_assoc, String.append_right_inj] at h
  obtain ⟨hfield, hclosing⟩ := Field.decodes_text (hm.1.called a) (hn.1.called b)
    (a.stopsPath_closing f.text) (b.stopsPath_closing g.text) h
  have hs : a.method.isSome = b.method.isSome := by
    rw [Bool.eq_iff_iff, a.isSome_method_iff, b.isSome_method_iff, ← a.first_closing f.text,
      ← b.first_closing g.text, hclosing]
  obtain ⟨rfl, hmethod⟩ := Field.called_inj hs hfield
  obtain rfl := Assertion.eq_of_closing_eq hm.2 hn.2 ho hmethod hclosing
  rfl

/-- Plain conditions have the same rule text exactly if they say the same thing. -/
theorem Condition.rule_eq_iff_meaning_eq {c d : Condition} {s t : String} (hc : c.Plain)
    (hd : d.Plain) (hs : c.rule = .ok s) (ht : d.rule = .ok t) :
    s = t ↔ c.meaning = d.meaning := by
  obtain ⟨hrc, rfl⟩ := (c.rule_eq_ok_iff s).mp hs
  obtain ⟨hrd, rfl⟩ := (d.rule_eq_ok_iff t).mp ht
  rw [← text_meaning hrc.1, ← text_meaning hrd.1]
  constructor
  · exact Meaning.eq_of_text_eq (legible_meaning hc hrc) (legible_meaning hd hrd)
  · intro h
    rw [h]

/-- An entry of a map is the place below it, and a zero has no sign. -/
theorem Condition.rule_eq_iff_meaning_eq_entry :
    let c : Condition := ⟨.here ⟨[.literal "a"], by decide⟩,
      .mapGet (.param "b") .eq (.number (.finite ⟨true, .zero⟩))⟩
    let d : Condition := ⟨.here ⟨[.literal "a", .param "b"], by decide⟩,
      .compareNumber .eq (.finite ⟨false, .zero⟩)⟩
    let s := ".a[b] == 0"
    c.Plain ∧ d.Plain ∧ c.rule = .ok s ∧ d.rule = .ok s ∧ c.meaning = d.meaning := by
  intro c d s
  have hc : c.Plain := by decide
  have hd : d.Plain := by decide
  have hcs : c.rule = .ok s := by rfl
  have hds : d.rule = .ok s := by rfl
  exact ⟨hc, hd, hcs, hds, (rule_eq_iff_meaning_eq hc hd hcs hds).mp rfl⟩

end AccessRules
