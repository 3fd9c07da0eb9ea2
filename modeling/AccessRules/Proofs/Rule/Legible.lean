import AccessRules.Proofs.Names
import AccessRules.Proofs.Rule.Meaning

/-! Meanings whose parts can be told apart in their text. -/
namespace AccessRules

/-- The number is finite, and positive if it is zero. -/
def Double.IsSettled (x : Double) : Prop := x.IsFinite ∧ x.settled = x

theorem Double.isSettled_settled {x : Double} (hx : x.IsFinite) : x.settled.IsSettled :=
  ⟨(isFinite_settled x).mpr hx, settled_settled x⟩

/-- The field is stored and its names are identifiers. -/
def Field.Legible (f : Field) : Prop := f.IsStored ∧ ∀ s ∈ f.segments, isName s.name = true

theorem Field.segments_child (f : Field) (s : Segment) :
    (f.child s).segments = f.segments ++ [s] := by
  cases f <;> simp [child, segments, Path.child]

theorem Field.Legible.child {f : Field} (hf : f.Legible) {s : Segment}
    (hs : isName s.name = true) : (f.child s).Legible := by
  refine ⟨(f.isStored_child s).mpr hf.1, ?_⟩
  intro t ht
  rw [segments_child, List.mem_append, List.mem_singleton] at ht
  rcases ht with ht | rfl
  · exact hf.2 t ht
  · exact hs

theorem Field.Legible.called {f : Field} (hf : f.Legible) (a : Assertion) :
    (f.called a.method).Legible := by
  cases a with
  | isTrue | compare | oneOf | isInteger | isFloat | element => exact hf
  | _ => exact hf.child rfl

/-- The operand is plain, and settled if it is a number. -/
def Scalar.Legible (v : Scalar) : Prop := v.Plain ∧ ∀ x ∈ v.numbers, x.IsSettled

def Target.Legible : Target → Prop
  | .point latitude longitude => latitude.IsSettled ∧ longitude.IsSettled
  | .field f => f.Legible

def Assertion.Legible : Assertion → Prop
  | .isTrue | .isInteger | .isFloat => True
  | .within _ x | .size _ x => x.IsSettled
  | .compare _ value | .element _ _ value => value.Legible
  | .oneOf items | .values _ items | .set _ items => ∀ l ∈ items, l.toScalar.Legible
  | .distance target _ x => target.Legible ∧ x.IsSettled
  | .keys _ names => ∀ name ∈ names, '"' ∉ name.toList

/-- Names, strings and numbers can be told apart from the text around them. -/
def Meaning.Legible (m : Meaning) : Prop := m.field.Legible ∧ m.assertion.Legible

theorem Scalar.legible_settled {v : Scalar} (hp : v.Plain) (hf : ∀ x ∈ v.numbers, x.IsFinite) :
    (v.mapNumbers .settled).Legible := by
  constructor
  · cases v <;> exact hp
  · intro x hx
    rw [numbers_mapNumbers] at hx
    obtain ⟨y, hy, rfl⟩ := List.mem_map.mp hx
    exact Double.isSettled_settled (hf y hy)

theorem Literal.legible_settled {items : List Literal}
    (hp : ∀ v ∈ items.map toScalar, v.Plain) (hf : ∀ x ∈ items.flatMap numbers, x.IsFinite) :
    ∀ l ∈ items.map (mapNumbers .settled), l.toScalar.Legible := by
  intro m hm
  obtain ⟨l, hl, rfl⟩ := List.mem_map.mp hm
  have hs : (l.mapNumbers .settled).toScalar = l.toScalar.mapNumbers .settled := by
    cases l <;> rfl
  have hn : l.toScalar.numbers = l.numbers := by
    cases l <;> rfl
  rw [hs]
  apply Scalar.legible_settled (hp _ (List.mem_map_of_mem hl))
  intro x hx
  exact hf x (List.mem_flatMap.mpr ⟨l, hl, hn ▸ hx⟩)

theorem Target.legible_settled {t : Target} (hs : t.IsStored)
    (hn : ∀ s ∈ t.segments, isName s.name = true) (hf : ∀ x ∈ t.numbers, x.IsFinite) :
    (t.mapNumbers .settled).Legible := by
  cases t with
  | point x y =>
    simp only [numbers, List.forall_mem_cons] at hf
    exact ⟨Double.isSettled_settled hf.1, Double.isSettled_settled hf.2.1⟩
  | field f => exact ⟨hs, hn⟩

theorem Literal.legible_strings {names : List String} (hn : ∀ name ∈ names, '"' ∉ name.toList) :
    ∀ l ∈ names.map Literal.string, l.toScalar.Legible := by
  rw [List.forall_mem_map]
  exact fun name hname => ⟨hn name hname, List.forall_mem_nil _⟩

/-- What a plain condition with rule text says is legible. -/
theorem Condition.legible_meaning {c : Condition} (hp : c.Plain) (hc : c.Renderable) :
    c.meaning.Legible := by
  obtain ⟨field, test⟩ := c
  obtain ⟨hn, hv⟩ := hp
  obtain ⟨hs, hf, hh⟩ := hc
  rw [segments, List.forall_mem_append] at hn
  have hfield : field.Legible := ⟨hs, hn.1⟩
  simp only at hn hv hs hf hh
  cases test with
  | isTrue | isInteger | isFloat => exact ⟨hfield, trivial⟩
  | within unit x => exact ⟨hfield, Double.isSettled_settled (hf x List.mem_cons_self)⟩
  | stringSize op x | mapSize op x | listSize op x =>
    exact ⟨hfield, Double.isSettled_settled (hf x List.mem_cons_self)⟩
  | compareNumber op x =>
    exact ⟨hfield, Scalar.legible_settled (hv (.number x) List.mem_cons_self) hf⟩
  | compareString op v | listGet i op v =>
    exact ⟨hfield, Scalar.legible_settled (hv v List.mem_cons_self) hf⟩
  | mapGet key op v =>
    exact ⟨hfield.child (hn.2 key List.mem_cons_self),
      Scalar.legible_settled (hv v List.mem_cons_self) hf⟩
  | inNumbers xs =>
    refine ⟨hfield, ?_⟩
    change ∀ l ∈ (xs.map .settled).map Literal.number, _
    rw [List.map_map, List.forall_mem_map]
    intro x hx
    have hx' : (Scalar.number x).Plain := trivial
    exact Scalar.legible_settled hx' (List.forall_mem_singleton.mpr (hf x hx))
  | inStrings values =>
    have hq (s : String) (hs : s ∈ values) := hv (.string s) (List.mem_map_of_mem hs)
    exact ⟨hfield, Literal.legible_strings hq⟩
  | mapKeys op names =>
    exact ⟨hfield, fun name hname => hv (.string name) (List.mem_map_of_mem hname)⟩
  | mapValues op items | listSet op items => exact ⟨hfield, Literal.legible_settled hv hf⟩
  | distance target op x =>
    rw [Test.numbers, List.forall_mem_append, List.forall_mem_singleton] at hf
    exact ⟨hfield, Target.legible_settled hh hn.2 hf.1, Double.isSettled_settled hf.2⟩

end AccessRules
