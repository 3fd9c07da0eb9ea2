import AccessRules.Proofs.Numbers

/-! Equality of conditions: the same tests with the same numbers, where the two zeros are the same
number and NaN is none. -/
namespace AccessRules

theorem Double.Finite.beq_iff (x y : Double.Finite) :
    (x == y) = true ↔ x.settled = y.settled := by
  change (_ == _ && (_ == _ || decide _)) = true ↔ _
  obtain ⟨s, m⟩ := x
  obtain ⟨t, n⟩ := y
  simp only [Bool.and_eq_true, Bool.or_eq_true, beq_iff_eq, decide_eq_true_eq, settled, mk.injEq]
  constructor
  · rintro ⟨rfl, hs | hz⟩
    · subst hs
      exact ⟨rfl, rfl⟩
    · have hz' : IsZero ⟨t, m⟩ := hz
      simp [hz, hz']
  · rintro ⟨hs, rfl⟩
    by_cases hz : IsZero ⟨s, m⟩
    · exact ⟨rfl, Or.inr hz⟩
    · have hz' : ¬ IsZero ⟨t, m⟩ := hz
      simp only [hz, hz', decide_false, Bool.not_false, Bool.and_true] at hs
      exact ⟨rfl, Or.inl hs⟩

theorem Double.beq_iff (x y : Double) :
    (x == y) = true ↔ x ≠ .nan ∧ x.settled = y.settled := by
  cases x with
  | nan => simp [BEq.beq, Double.beq]
  | infinite s =>
    cases y with
    | nan => simp [BEq.beq, Double.beq, settled]
    | infinite t =>
      change (s == t) = true ↔ _
      simp [settled]
    | finite y => simp [BEq.beq, Double.beq, settled]
  | finite x =>
    cases y with
    | nan => simp [BEq.beq, Double.beq, settled]
    | infinite t => simp [BEq.beq, Double.beq, settled]
    | finite y =>
      change (x == y) = true ↔ _
      simp [settled, Finite.beq_iff]

theorem list_beq_iff {α β : Type} [BEq α] {P : α → Prop} {g : α → β}
    (h : ∀ x y : α, (x == y) = true ↔ P x ∧ g x = g y) (xs ys : List α) :
    (xs == ys) = true ↔ (∀ x ∈ xs, P x) ∧ xs.map g = ys.map g := by
  induction xs generalizing ys with
  | nil => cases ys <;> simp
  | cons x xs ih =>
    cases ys with
    | nil => simp
    | cons y ys =>
      rw [List.cons_beq_cons, Bool.and_eq_true, h, ih, and_and_and_comm]
      simp only [List.forall_mem_cons, List.map_cons, List.cons.injEq]

theorem Literal.beq_iff (a b : Literal) :
    (a == b) = true ↔
      (∀ x ∈ a.numbers, x ≠ .nan) ∧ a.mapNumbers .settled = b.mapNumbers .settled := by
  match a, b with
  | .string s, .string t =>
    change (s == t) = true ↔ _
    simp [numbers, mapNumbers]
  | .number x, .number y =>
    change (x == y) = true ↔ _
    simp [numbers, mapNumbers, Double.beq_iff]
  | .string s, .number y => simp [BEq.beq, instBEqLiteral.beq, mapNumbers]
  | .number x, .string t => simp [BEq.beq, instBEqLiteral.beq, mapNumbers]

theorem Scalar.beq_iff (a b : Scalar) :
    (a == b) = true ↔
      (∀ x ∈ a.numbers, x ≠ .nan) ∧ a.mapNumbers .settled = b.mapNumbers .settled := by
  match a, b with
  | .string s, .string t =>
    change (s == t) = true ↔ _
    simp [numbers, mapNumbers]
  | .number x, .number y =>
    change (x == y) = true ↔ _
    simp [numbers, mapNumbers, Double.beq_iff]
  | .param s, .param t =>
    change (s == t) = true ↔ _
    simp [numbers, mapNumbers]
  | .string s, .number y => simp [BEq.beq, instBEqScalar.beq, mapNumbers]
  | .string s, .param t => simp [BEq.beq, instBEqScalar.beq, mapNumbers]
  | .number x, .string t => simp [BEq.beq, instBEqScalar.beq, mapNumbers]
  | .number x, .param t => simp [BEq.beq, instBEqScalar.beq, mapNumbers]
  | .param s, .string t => simp [BEq.beq, instBEqScalar.beq, mapNumbers]
  | .param s, .number y => simp [BEq.beq, instBEqScalar.beq, mapNumbers]

theorem Target.beq_iff (a b : Target) :
    (a == b) = true ↔
      (∀ x ∈ a.numbers, x ≠ .nan) ∧ a.mapNumbers .settled = b.mapNumbers .settled := by
  match a, b with
  | .point x y, .point u v =>
    change (x == u && y == v) = true ↔ _
    simp [numbers, mapNumbers, Double.beq_iff, and_and_and_comm]
  | .field f, .field g =>
    change (f == g) = true ↔ _
    simp [numbers, mapNumbers]
  | .point x y, .field g => simp [BEq.beq, instBEqTarget.beq, mapNumbers]
  | .field f, .point u v => simp [BEq.beq, instBEqTarget.beq, mapNumbers]

namespace Test

theorem ctorIdx_mapNumbers (f : Double → Double) (t : Test) :
    (t.mapNumbers f).ctorIdx = t.ctorIdx := by
  cases t <;> rfl

theorem ctorIdx_eq_of_beq {t u : Test} (h : (t == u) = true) : t.ctorIdx = u.ctorIdx := by
  change instBEqTest.beq t u = true at h
  unfold instBEqTest.beq at h
  split at h
  next hc _ => exact hc
  next => cases h

/-- Tests of the same kind are equal if their operands are. -/
theorem beq_iff_of_ctorIdx {t u : Test} (hc : t.ctorIdx = u.ctorIdx) :
    (t == u) = true ↔
      (∀ x ∈ t.numbers, x ≠ .nan) ∧ t.mapNumbers .settled = u.mapNumbers .settled := by
  change instBEqTest.beq t u = true ↔ _
  unfold instBEqTest.beq
  -- The two tests have the same constructor; what is left is to compare their operands.
  cases t <;> cases u <;> cases hc <;> dsimp only [Test.ctorIdx] <;>
    simp [numbers, mapNumbers, Double.beq_iff, Scalar.beq_iff, Target.beq_iff,
      list_beq_iff Double.beq_iff, list_beq_iff Literal.beq_iff] <;>
    grind

theorem beq_iff (t u : Test) :
    (t == u) = true ↔
      (∀ x ∈ t.numbers, x ≠ .nan) ∧ t.mapNumbers .settled = u.mapNumbers .settled := by
  by_cases hc : t.ctorIdx = u.ctorIdx
  · exact beq_iff_of_ctorIdx hc
  · constructor
    · intro h
      exact (hc (ctorIdx_eq_of_beq h)).elim
    · rintro ⟨_, h⟩
      have hm := congrArg Test.ctorIdx h
      rw [ctorIdx_mapNumbers, ctorIdx_mapNumbers] at hm
      exact (hc hm).elim

end Test

theorem Condition.beq_iff (c d : Condition) :
    (c == d) = true ↔
      c.field = d.field ∧ (∀ x ∈ c.test.numbers, x ≠ .nan) ∧
        c.test.mapNumbers .settled = d.test.mapNumbers .settled := by
  obtain ⟨f, t⟩ := c
  obtain ⟨g, u⟩ := d
  change (f == g && t == u) = true ↔ _
  rw [Bool.and_eq_true, beq_iff_eq, Test.beq_iff]

end AccessRules
