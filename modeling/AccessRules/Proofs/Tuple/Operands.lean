import AccessRules.Proofs.Tuple.Grammar
import AccessRules.Proofs.Tuple.Reread

/-! The parts of tuple form are read exactly as the grammar has them. -/
namespace AccessRules

namespace Outcome

variable {ε α β : Type}

theorem mapM_eq_ok_iff_forall₂ {f : α → Except ε β} {R : α → β → Prop}
    (h : ∀ x y, f x = .ok y ↔ R x y) (xs : List α) (ys : List β) :
    xs.mapM f = .ok ys ↔ List.Forall₂ R xs ys := by
  induction xs generalizing ys with
  | nil => simp [eq_comm]
  | cons x xs ih =>
    rw [mapM_cons_eq_ok_iff, List.forall₂_cons_left_iff]
    simp only [h, ih]

end Outcome

namespace Json

theorem expectArray_eq_ok_iff (what : Mismatch) (v : Json) (items : List Json) :
    v.expectArray what = .ok items ↔ v = .array items := by
  cases v <;> simp [expectArray]

theorem expectNumber_eq_ok_iff (v : Json) (x : Double) :
    v.expectNumber = .ok x ↔ ∃ n : Number, v = .number n ∧ n.toDouble = x := by
  cases v <;> simp [expectNumber]

theorem expectString_eq_ok_iff (what : Mismatch) (v : Json) (s : String) :
    v.expectString what = .ok s ↔ v = .string s := by
  cases v <;> simp [expectString]

theorem expectToken_eq_ok_iff {α : Type} [Token α] [Token.Exact α] (what : Mismatch) (v : Json)
    (a : α) : v.expectToken what = .ok a ↔ v = .ofToken a := by
  constructor
  · intro h
    obtain ⟨s, hs, ha⟩ := Outcome.bind_eq_ok_iff.mp h
    rw [expectString_eq_ok_iff] at hs
    split at ha
    next b hb =>
      obtain rfl := Except.ok.inj ha
      rw [hs, ofToken, Token.token_of_ofString? hb]
    next => cases ha
  · rintro rfl
    exact expectToken_ofToken what a

theorem param?_eq_some_iff (v : Json) (name : String) :
    v.param? = some name ↔ v = .array [.string "param", .string name] := by
  constructor
  · intro h
    unfold param? at h
    split at h
    next tag name' =>
      split at h
      next ht => rw [ht, Option.some.inj h]
      next => cases h
    next => cases h
  · rintro rfl
    rfl

theorem expectStrings_eq_ok_iff (v : Json) (ss : List String) :
    v.expectStrings = .ok ss ↔ v = .array (ss.map .string) := by
  constructor
  · intro h
    obtain ⟨items, hi, hm⟩ := Outcome.bind_eq_ok_iff.mp h
    rw [expectArray_eq_ok_iff] at hi
    have hf := (Outcome.mapM_eq_ok_iff_forall₂ (expectString_eq_ok_iff .string) items ss).mp hm
    rw [← List.forall₂_map_right_iff, List.forall₂_eq_eq_eq] at hf
    rw [hi, hf]
  · rintro rfl
    exact expectStrings_ofStrings ss

theorem mapM_expectNumber_eq_ok_iff (items : List Json) (xs : List Double) :
    items.mapM expectNumber = .ok xs ↔
      ∃ ns : List Number, items = ns.map .number ∧ ns.map Number.toDouble = xs := by
  rw [Outcome.mapM_eq_ok_iff_forall₂ expectNumber_eq_ok_iff]
  constructor
  · intro h
    induction h with
    | nil => exact ⟨[], rfl, rfl⟩
    | cons hx _ ih =>
      obtain ⟨n, rfl, rfl⟩ := hx
      obtain ⟨ns, rfl, rfl⟩ := ih
      exact ⟨n :: ns, rfl, rfl⟩
  · rintro ⟨ns, rfl, rfl⟩
    simp [List.forall₂_map_left_iff, List.forall₂_map_right_iff, List.forall₂_same]

end Json

theorem Segment.ofJson_eq_ok_iff (v : Json) (s : Segment) :
    Segment.ofJson v = .ok s ↔ Segment.TupleForm v s := by
  constructor
  · intro h
    unfold Segment.ofJson at h
    split at h
    next name =>
      obtain rfl := Except.ok.inj h
      exact .literal name
    next =>
      split at h
      next name hn =>
        obtain rfl := Except.ok.inj h
        obtain rfl := (Json.param?_eq_some_iff v name).mp hn
        exact .param name
      next => cases h
  · rintro (name | name) <;> rfl

theorem Path.ofList_eq_ok_iff (ss : List Segment) (p : Path) :
    Path.ofList ss = .ok p ↔ ss = p.segments := by
  obtain ⟨segments, hp⟩ := p
  cases ss with
  | nil =>
    simp only [Path.ofList]
    constructor
    · intro h
      cases h
    · intro h
      exact (hp h.symm).elim
  | cons s ss => simp [Path.ofList]

theorem Path.ofJson_eq_ok_iff (v : Json) (p : Path) :
    Path.ofJson v = .ok p ↔ Path.TupleForm v p := by
  have hm := Outcome.mapM_eq_ok_iff_forall₂ Segment.ofJson_eq_ok_iff
  unfold Path.ofJson
  simp only [Outcome.bind_eq_ok_iff, Json.expectArray_eq_ok_iff, hm, Path.ofList_eq_ok_iff]
  constructor
  · rintro ⟨items, rfl, ss, hs, rfl⟩
    exact .list hs
  · rintro ⟨hs⟩
    exact ⟨_, rfl, _, hs, rfl⟩

theorem Path.ofLocal_eq_ok_iff (v : Json) (p : Path) :
    Path.ofLocal v = .ok p ↔ ∃ u, v = .array [.string "field", u] ∧ Path.TupleForm u p := by
  constructor
  · intro h
    unfold Path.ofLocal at h
    split at h
    next tag u =>
      split at h
      next ht => exact ⟨u, by rw [ht], (Path.ofJson_eq_ok_iff u p).mp h⟩
      next => cases h
    next => cases h
  · rintro ⟨u, rfl, hp⟩
    exact (Path.ofJson_eq_ok_iff u p).mpr hp

theorem Field.ofJson_eq_ok_iff (v : Json) (f : Field) :
    Field.ofJson v = .ok f ↔ Field.TupleForm v f := by
  constructor
  · intro h
    unfold Field.ofJson at h
    split at h
    next tag u =>
      split at h
      next ht =>
        obtain ⟨p, hp, rfl⟩ := Outcome.map_eq_ok_iff.mp h
        rw [ht]
        exact .here ((Path.ofJson_eq_ok_iff u p).mp hp)
      next =>
        split at h
        next ht =>
          obtain ⟨p, hp, rfl⟩ := Outcome.map_eq_ok_iff.mp h
          rw [ht]
          exact .updated ((Path.ofJson_eq_ok_iff u p).mp hp)
        next => cases h
    next tag u w =>
      split at h
      next ht =>
        obtain ⟨d, hd, h⟩ := Outcome.bind_eq_ok_iff.mp h
        obtain ⟨p, hp, h⟩ := Outcome.bind_eq_ok_iff.mp h
        obtain rfl := Except.ok.inj h
        obtain ⟨v, rfl, hv⟩ := (Path.ofLocal_eq_ok_iff w p).mp hp
        rw [ht]
        exact .elsewhere ((Path.ofJson_eq_ok_iff u d).mp hd) hv
      next => cases h
    next => cases h
    next => cases h
  · intro h
    cases h with
    | here hp => simp [Field.ofJson, (Path.ofJson_eq_ok_iff _ _).mpr hp]
    | elsewhere hd hp =>
      simp [Field.ofJson, Path.ofLocal, (Path.ofJson_eq_ok_iff _ _).mpr hd,
        (Path.ofJson_eq_ok_iff _ _).mpr hp]
    | updated hp => simp [Field.ofJson, (Path.ofJson_eq_ok_iff _ _).mpr hp]

theorem Field.TupleForm.isField {v : Json} {f : Field} (h : Field.TupleForm v f) :
    v.isField = true := by
  cases h <;> simp [Json.isField]

/-- A field is no string, so a tuple is never tagged as a field. -/
theorem Field.TupleForm.isField_cons {v : Json} {f : Field} (h : Field.TupleForm v f)
    (tail : List Json) : Json.isField (.array (v :: tail)) = false := by
  cases h <;> rfl

theorem Literal.ofJson_eq_ok_iff (v : Json) (l : Literal) :
    Literal.ofJson v = .ok l ↔ Literal.TupleForm v l := by
  constructor
  · intro h
    unfold Literal.ofJson at h
    split at h
    next s =>
      obtain rfl := Except.ok.inj h
      exact .string s
    next n =>
      obtain rfl := Except.ok.inj h
      exact .number n
    next => cases h
  · rintro (s | n) <;> rfl

theorem Literal.listOfJson_eq_ok_iff (v : Json) (values : List Literal) :
    Literal.listOfJson v = .ok values ↔
      ∃ items, v = .array items ∧ List.Forall₂ Literal.TupleForm items values := by
  have hm := Outcome.mapM_eq_ok_iff_forall₂ Literal.ofJson_eq_ok_iff
  unfold Literal.listOfJson
  simp only [Outcome.bind_eq_ok_iff, Json.expectArray_eq_ok_iff, hm]

theorem Scalar.ofJson_eq_ok_iff (v : Json) (value : Scalar) :
    Scalar.ofJson v = .ok value ↔ Scalar.TupleForm v value := by
  constructor
  · intro h
    unfold Scalar.ofJson at h
    split at h
    next s =>
      obtain rfl := Except.ok.inj h
      exact .string s
    next n =>
      obtain rfl := Except.ok.inj h
      exact .number n
    next =>
      split at h
      next name hn =>
        obtain rfl := Except.ok.inj h
        obtain rfl := (Json.param?_eq_some_iff v name).mp hn
        exact .param name
      next => cases h
  · rintro (s | n | name) <;> rfl

theorem Target.ofField_eq_ok_iff (v : Json) (t : Target) :
    Target.ofJson.ofField v = .ok t ↔ ∃ f, Field.TupleForm v f ∧ .field f = t := by
  unfold Target.ofJson.ofField
  constructor
  · intro h
    split at h
    next =>
      obtain ⟨f, hf, rfl⟩ := Outcome.map_eq_ok_iff.mp h
      exact ⟨f, (Field.ofJson_eq_ok_iff v f).mp hf, rfl⟩
    next => cases h
  · rintro ⟨f, hf, rfl⟩
    rw [if_pos hf.isField, (Field.ofJson_eq_ok_iff v f).mpr hf]
    rfl

theorem Target.ofJson_eq_ok_iff (v : Json) (t : Target) :
    Target.ofJson v = .ok t ↔ Target.TupleForm v t := by
  constructor
  · intro h
    unfold Target.ofJson at h
    have hfield (h : Target.ofJson.ofField v = .ok t) : Target.TupleForm v t := by
      obtain ⟨f, hf, rfl⟩ := (Target.ofField_eq_ok_iff v t).mp h
      exact .field hf
    split at h
    next tag latitude longitude =>
      split at h
      next ht =>
        obtain ⟨x, hx, h⟩ := Outcome.bind_eq_ok_iff.mp h
        obtain ⟨y, hy, h⟩ := Outcome.bind_eq_ok_iff.mp h
        obtain rfl := Except.ok.inj h
        obtain ⟨m, rfl, rfl⟩ := (Json.expectNumber_eq_ok_iff latitude x).mp hx
        obtain ⟨n, rfl, rfl⟩ := (Json.expectNumber_eq_ok_iff longitude y).mp hy
        rw [ht]
        exact .point m n
      next => exact hfield h
    next => exact hfield h
  · intro h
    cases h with
    | point m n => rfl
    | field hf =>
      have he : Target.ofJson v = Target.ofJson.ofField v := by
        cases hf <;> rfl
      rw [he]
      exact (Target.ofField_eq_ok_iff v _).mpr ⟨_, hf, rfl⟩

end AccessRules
