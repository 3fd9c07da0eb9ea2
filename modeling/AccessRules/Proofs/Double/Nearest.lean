import AccessRules.Proofs.Double.Monotone
import Mathlib.Algebra.Order.Field.Basic
import Mathlib.Tactic.FieldSimp
import Mathlib.Tactic.Linarith
import Mathlib.Tactic.Ring

/-! Rounding to the nearest double, ties to even, as a property of exact rational numbers, and that
it is what rounding on quanta does. -/
namespace AccessRules.Double

section Steps

variable {a p q : Nat}

theorem ulp_dvd_ulp (h : a ≤ q) : ulp a ∣ ulp q := by
  have hl := log2_mono h
  exact Nat.pow_dvd_pow 2 (by omega)

theorem ulp_dvd_of_le (hq : Aligned q) (h : a ≤ q) : ulp a ∣ q :=
  Nat.dvd_trans (ulp_dvd_ulp h) (Nat.dvd_of_mod_eq_zero hq)

/-- Above the least magnitudes a significand has its leading bit. -/
theorem le_div_ulp (a : Nat) : 2 ^ 52 ≤ a / ulp a ∨ ulp a = 1 := by
  rcases Nat.lt_or_ge a.log2 52 with hl | hl
  · right
    rw [ulp, Nat.sub_eq_zero_of_le (Nat.le_of_lt hl), Nat.pow_eq, Nat.pow_zero]
  · left
    have ha : a ≠ 0 := by
      rintro rfl
      simp at hl
    rw [Nat.le_div_iff_mul_le (ulp_pos a), ulp, Nat.pow_eq, ← Nat.pow_add,
      Nat.add_sub_cancel' hl]
    exact Nat.log2_self_le ha

/-- The step at a number is that of its significand. -/
theorem ulp_mul_ulp {k : Nat} (hk : k < 2 ^ 53) (h : 2 ^ 52 ≤ k ∨ ulp a = 1) :
    ulp (k * ulp a) = ulp a := by
  rcases h with hlow | hone
  · have hne : k * ulp a ≠ 0 := Nat.mul_ne_zero (by omega) (Nat.ne_of_gt (ulp_pos a))
    have hlog : (k * ulp a).log2 = 52 + (a.log2 - 52) := by
      rw [Nat.log2_eq_iff hne, ulp, Nat.pow_eq, Nat.pow_add, Nat.add_right_comm, Nat.pow_add]
      constructor
      · exact Nat.mul_le_mul_right _ hlow
      · exact Nat.mul_lt_mul_of_pos_right hk (Nat.two_pow_pos _)
    rw [ulp, hlog, Nat.add_sub_cancel_left, ulp]
  · have hl : k.log2 < 53 := by
      by_cases hz : k = 0
      · simp [hz]
      · rwa [Nat.log2_lt hz]
    rw [hone, Nat.mul_one, ulp, Nat.sub_eq_zero_of_le (by omega), Nat.pow_eq, Nat.pow_zero]

/-- No magnitude lies strictly between a number rounded down to its steps and the next step. -/
theorem succ_mul_ulp_le (hp : Aligned p) (h : a / ulp a * ulp a < p) :
    (a / ulp a + 1) * ulp a ≤ p := by
  have hu : ulp (a / ulp a * ulp a) = ulp a := ulp_mul_ulp (div_ulp_lt a) (le_div_ulp a)
  have hd : ulp a ∣ p := hu ▸ ulp_dvd_of_le hp (Nat.le_of_lt h)
  obtain ⟨j, rfl⟩ := hd
  rw [Nat.mul_comm (ulp a)] at h ⊢
  exact Nat.mul_le_mul_right _ (Nat.lt_of_mul_lt_mul_right h)

theorem div_ulp_mul (hq : Aligned q) : q / ulp q * ulp q = q :=
  Nat.div_mul_cancel (Nat.dvd_of_mod_eq_zero hq)

/-- An even number of steps is an even significand; if it carries, it is a power of two. -/
theorem even_div_ulp {k : Nat} (hk : k ≤ 2 ^ 53) (h : 2 ^ 52 ≤ k ∨ ulp a = 1)
    (he : k % 2 = 0) : k * ulp a / ulp (k * ulp a) % 2 = 0 := by
  rcases Nat.lt_or_eq_of_le hk with hlt | rfl
  · rw [ulp_mul_ulp hlt h, Nat.mul_div_cancel _ (ulp_pos a), he]
  · have hu : ulp (2 ^ 53 * ulp a) = 2 * ulp a := by
      rw [ulp, ulp, Nat.pow_eq, Nat.pow_eq, ← Nat.pow_add, Nat.log2_two_pow, ← Nat.pow_succ']
      congr 1
      omega
    rw [hu, Nat.mul_div_mul_right _ _ (ulp_pos a)]
    decide

end Steps

section Naturals

variable {num den p q : Nat}

/-- The quotient lies on the side of `q` of the midpoint between `q` and any other magnitude. It may
lie on such a midpoint only if the significand of `q` is even. -/
structure IsNearest (num den q : Nat) : Prop where
  aligned : Aligned q
  above : ∀ p, Aligned p → q < p → 2 * num ≤ (q + p) * den
  below : ∀ p, Aligned p → p < q → (q + p) * den ≤ 2 * num
  even : ∀ p, Aligned p → p ≠ q → (q + p) * den = 2 * num → q / ulp q % 2 = 0

/-- Rounding takes the step below or the step above. -/
theorem roundHalfEven_cases (num den : Nat) :
    roundHalfEven num den = num / den ∧ 2 * (num % den) ≤ den ∧
        (2 * (num % den) = den → num / den % 2 = 0) ∨
      roundHalfEven num den = num / den + 1 ∧ den ≤ 2 * (num % den) ∧
        (2 * (num % den) = den → (num / den + 1) % 2 = 0) := by
  unfold roundHalfEven
  split
  · left
    omega
  · split
    · right
      omega
    · rcases Nat.mod_two_eq_zero_or_one (num / den) with he | ho
      · left
        omega
      · right
        omega

/-- Counted in parts of which a quantum has `den`, a step has `den * u`. Where no magnitude lies
strictly between two steps around the number, the nearer of the two steps is nearest. -/
theorem IsNearest.of_steps {u k r j : Nat} (hd : 0 < den) (hj : Aligned (j * u))
    (hsplit : k * (den * u) + r = num) (hrest : r < den * u)
    (hgap : ∀ p, Aligned p → p * den ≤ k * (den * u) ∨ k * (den * u) + den * u ≤ p * den)
    (hcases : j = k ∧ 2 * r ≤ den * u ∨ j = k + 1 ∧ den * u ≤ 2 * r)
    (heven : 2 * r = den * u → j * u / ulp (j * u) % 2 = 0) : IsNearest num den (j * u) := by
  have hq : j * u * den = k * (den * u) ∧ 2 * r ≤ den * u ∨
      j * u * den = k * (den * u) + den * u ∧ den * u ≤ 2 * r := by
    have hscale : j * u * den = j * (den * u) := by ac_rfl
    rw [hscale]
    rcases hcases with ⟨rfl, hr⟩ | ⟨rfl, hr⟩
    · exact Or.inl ⟨rfl, hr⟩
    · exact Or.inr ⟨Nat.succ_mul _ _, hr⟩
  generalize j * u = q at hj hq heven ⊢
  refine ⟨hj, ?_, ?_, ?_⟩
  · intro p hp h
    have hlt := Nat.mul_lt_mul_of_pos_right h hd
    have hpoint := hgap p hp
    rw [Nat.add_mul]
    omega
  · intro p hp h
    have hlt := Nat.mul_lt_mul_of_pos_right h hd
    have hpoint := hgap p hp
    rw [Nat.add_mul]
    omega
  · intro p hp hne he
    have hne' : p * den ≠ q * den := fun h => hne (Nat.eq_of_mul_eq_mul_right hd h)
    have hpoint := hgap p hp
    apply heven
    rw [Nat.add_mul] at he
    omega

theorem isNearest_nearest (num : Nat) (hd : 0 < den) : IsNearest num den (nearest num den) := by
  have hlt := div_ulp_lt (num / den)
  have hlow := le_div_ulp (num / den)
  have hnext {p : Nat} (hp : Aligned p) := succ_mul_ulp_le (a := num / den) hp
  rw [Nat.div_div_eq_div_mul] at hlt hlow hnext
  have hscale (i : Nat) : i * ulp (num / den) * den = i * (den * ulp (num / den)) := by ac_rfl
  have hgap : ∀ p, Aligned p →
      p * den ≤ num / (den * ulp (num / den)) * (den * ulp (num / den)) ∨
        num / (den * ulp (num / den)) * (den * ulp (num / den)) + den * ulp (num / den) ≤
          p * den := by
    intro p hp
    rw [← Nat.succ_mul, ← hscale, ← hscale]
    rcases Nat.lt_or_ge (num / (den * ulp (num / den)) * ulp (num / den)) p with h | h
    · exact Or.inr (Nat.mul_le_mul_right den (hnext hp h))
    · exact Or.inl (Nat.mul_le_mul_right den h)
  have hround := roundHalfEven_cases num (den * ulp (num / den))
  refine IsNearest.of_steps hd (aligned_nearest num den) (Nat.div_add_mod' num _)
    (Nat.mod_lt num (Nat.mul_pos hd (ulp_pos _))) hgap ?_ ?_
  · rcases hround with ⟨hj, hr, -⟩ | ⟨hj, hr, -⟩
    · exact Or.inl ⟨hj, hr⟩
    · exact Or.inr ⟨hj, hr⟩
  · intro htie
    rcases hround with ⟨hj, -, he⟩ | ⟨hj, -, he⟩
    · rw [hj]
      exact even_div_ulp (Nat.le_of_lt hlt) hlow (he htie)
    · rw [hj]
      exact even_div_ulp hlt (hlow.imp_left Nat.le_succ_of_le) (he htie)

/-- Two nearest magnitudes would be neighbours with the number midway, and of two neighbours one has
an odd significand. -/
theorem IsNearest.not_lt (hp : IsNearest num den p) (hq : IsNearest num den q) (hd : 0 < den) :
    ¬ p < q := by
  intro hlt
  have hmid : (p + q) * den = 2 * num := by
    have h₁ := hp.above q hq.aligned hlt
    have h₂ := hq.below p hp.aligned hlt
    rw [Nat.add_comm q p] at h₂
    omega
  have hep := hp.even q hq.aligned (Nat.ne_of_gt hlt) hmid
  have heq := hq.even p hp.aligned (Nat.ne_of_lt hlt) (by rwa [Nat.add_comm q p])
  have hs := div_ulp_lt p
  have hlow := le_div_ulp p
  have hself := div_ulp_mul hp.aligned
  have hnext : (p / ulp p + 1) * ulp p ≤ q :=
    succ_mul_ulp_le hq.aligned (by rwa [hself])
  have haligned : Aligned ((p / ulp p + 1) * ulp p) := aligned_mul_two_pow _ _ hs
  have hle : q ≤ (p / ulp p + 1) * ulp p := by
    rw [← Nat.not_lt]
    intro h
    have hpn : p < (p / ulp p + 1) * ulp p := by
      rw [Nat.succ_mul, hself]
      exact Nat.lt_add_of_pos_right (ulp_pos p)
    have h₁ := hp.above _ haligned hpn
    have h₂ : (p + (p / ulp p + 1) * ulp p) * den < (p + q) * den :=
      Nat.mul_lt_mul_of_pos_right (Nat.add_lt_add_left h p) hd
    omega
  have hodd : p / ulp p + 1 < 2 ^ 53 := by
    simp only [Nat.pow_eq] at hs
    omega
  have hu := ulp_mul_ulp hodd (hlow.imp_left Nat.le_succ_of_le)
  rw [Nat.le_antisymm hle hnext, hu, Nat.mul_div_cancel _ (ulp_pos p)] at heq
  omega

theorem isNearest_iff (hd : 0 < den) : IsNearest num den q ↔ nearest num den = q := by
  constructor
  · intro h
    have hn := isNearest_nearest num hd
    exact Nat.le_antisymm (Nat.not_lt.mp (h.not_lt hn hd)) (Nat.not_lt.mp (hn.not_lt h hd))
  · rintro rfl
    exact isNearest_nearest num hd

end Naturals

section Rationals

/-- The significand, of at most 53 bits. -/
def significand (q : Nat) : Nat := q / ulp q

/-- The exact number. -/
def Finite.value (x : Finite) : ℚ :=
  (if x.negative then -1 else 1) * (x.magnitude.quanta / quantaPerOne)

/-- A significand of 53 bits counts quanta or something coarser. There is no largest such number. -/
def Representable (y : ℚ) : Prop :=
  ∃ (m : ℤ) (k : ℕ), |m| < 2 ^ 53 ∧ y = m * 2 ^ k / quantaPerOne

/-- The double is nearest to the number; of two nearest the one with the even significand is taken. A
number that is nearer to what lies beyond the largest double is rounded to none. -/
structure RoundsTo (r : ℚ) (x : Finite) : Prop where
  nearest : ∀ y, Representable y → |x.value - r| ≤ |y - r|
  even : ∀ y, Representable y → y ≠ x.value → |x.value - r| = |y - r| →
    significand x.magnitude.quanta % 2 = 0

theorem quantaPerOne_cast_pos : (0 : ℚ) < quantaPerOne := Nat.cast_pos.mpr quantaPerOne_pos

theorem representable_iff (y : ℚ) :
    Representable y ↔ ∃ p, Aligned p ∧ |y| = p / quantaPerOne := by
  have hone := quantaPerOne_cast_pos
  constructor
  · rintro ⟨m, k, hm, rfl⟩
    have hm' : m.natAbs ≤ 2 ^ 53 := by
      rw [Int.abs_eq_natAbs] at hm
      exact_mod_cast hm.le
    refine ⟨m.natAbs * 2 ^ k, aligned_mul_two_pow _ _ hm', ?_⟩
    rw [abs_div, abs_mul, abs_of_pos hone, abs_of_pos (pow_pos (by norm_num : (0 : ℚ) < 2) k)]
    push_cast [Nat.cast_natAbs]
    rfl
  · rintro ⟨p, hp, hy⟩
    have hs : ((p / ulp p : Nat) : ℤ) < 2 ^ 53 := by exact_mod_cast div_ulp_lt p
    have hp' : (p : ℚ) = (p / ulp p : Nat) * 2 ^ (p.log2 - 52) := by
      have h := div_ulp_mul hp
      rw [ulp, Nat.pow_eq] at h
      exact_mod_cast h.symm
    rcases eq_or_eq_neg_of_abs_eq hy with rfl | rfl
    · refine ⟨(p / ulp p : Nat), p.log2 - 52, ?_, ?_⟩
      · rwa [Nat.abs_cast]
      · rw [hp', Int.cast_natCast]
    · refine ⟨-(p / ulp p : Nat), p.log2 - 52, ?_, ?_⟩
      · rwa [abs_neg, Nat.abs_cast]
      · rw [hp', Int.cast_neg, Int.cast_natCast]
        ring

section Midpoint

variable {a b t : ℚ}

theorem abs_sub_le_abs_sub_iff (h : a < b) : |a - t| ≤ |b - t| ↔ 2 * t ≤ a + b := by
  rw [← sq_le_sq, ← sub_nonneg]
  have hfactor : (b - t) ^ 2 - (a - t) ^ 2 = (b - a) * (a + b - 2 * t) := by ring
  rw [hfactor, mul_nonneg_iff_of_pos_left (sub_pos.mpr h), sub_nonneg]

theorem abs_sub_le_abs_sub_iff_of_gt (h : b < a) : |a - t| ≤ |b - t| ↔ a + b ≤ 2 * t := by
  rw [← sq_le_sq, ← sub_nonneg]
  have hfactor : (b - t) ^ 2 - (a - t) ^ 2 = (a - b) * (2 * t - (a + b)) := by ring
  rw [hfactor, mul_nonneg_iff_of_pos_left (sub_pos.mpr h), sub_nonneg]

theorem abs_sub_eq_abs_sub_iff (h : a ≠ b) : |a - t| = |b - t| ↔ a + b = 2 * t := by
  rw [← sq_eq_sq_iff_abs_eq_abs, ← sub_eq_zero]
  have hfactor : (a - t) ^ 2 - (b - t) ^ 2 = (a - b) * (a + b - 2 * t) := by ring
  rw [hfactor, mul_eq_zero_iff_left (sub_ne_zero.mpr h), sub_eq_zero]

end Midpoint

/-- On which side of a midpoint a number lies is which of the two ends is nearer. -/
theorem isNearest_iff_abs {num den q : Nat} (hd : 0 < den) :
    IsNearest num den q ↔ Aligned q ∧ ∀ p, Aligned p →
      |(q : ℚ) - num / den| ≤ |(p : ℚ) - num / den| ∧
        (p ≠ q → |(q : ℚ) - num / den| = |(p : ℚ) - num / den| → significand q % 2 = 0) := by
  have hd' : (0 : ℚ) < den := Nat.cast_pos.mpr hd
  have habove {p : Nat} (h : q < p) :
      |(q : ℚ) - num / den| ≤ |(p : ℚ) - num / den| ↔ 2 * num ≤ (q + p) * den := by
    rw [abs_sub_le_abs_sub_iff (Nat.cast_lt.mpr h), ← mul_div_assoc, div_le_iff₀ hd']
    norm_cast
  have hbelow {p : Nat} (h : p < q) :
      |(q : ℚ) - num / den| ≤ |(p : ℚ) - num / den| ↔ (q + p) * den ≤ 2 * num := by
    rw [abs_sub_le_abs_sub_iff_of_gt (Nat.cast_lt.mpr h), ← mul_div_assoc, le_div_iff₀ hd']
    norm_cast
  have hmid {p : Nat} (h : p ≠ q) :
      |(q : ℚ) - num / den| = |(p : ℚ) - num / den| ↔ (q + p) * den = 2 * num := by
    rw [abs_sub_eq_abs_sub_iff (Nat.cast_injective.ne h.symm), ← mul_div_assoc,
      eq_div_iff hd'.ne']
    norm_cast
  constructor
  · intro h
    refine ⟨h.aligned, ?_⟩
    intro p hp
    refine ⟨?_, fun hne he => h.even p hp hne ((hmid hne).mp he)⟩
    rcases Nat.lt_trichotomy q p with hlt | rfl | hlt
    · exact (habove hlt).mpr (h.above p hp hlt)
    · exact le_refl _
    · exact (hbelow hlt).mpr (h.below p hp hlt)
  · rintro ⟨hq, h⟩
    exact ⟨hq, fun p hp hlt => (habove hlt).mp (h p hp).1, fun p hp hlt => (hbelow hlt).mp (h p hp).1,
      fun p hp hne he => (h p hp).2 hne ((hmid hne).mpr he)⟩

section Signed

variable {r : ℚ} {x : Finite}

theorem abs_sign (negative : Bool) : |(if negative then -1 else 1 : ℚ)| = 1 := by
  cases negative <;> simp

theorem Finite.abs_value (x : Finite) : |x.value| = x.magnitude.quanta / quantaPerOne := by
  have hq : (0 : ℚ) ≤ x.magnitude.quanta / quantaPerOne :=
    div_nonneg (Nat.cast_nonneg _) quantaPerOne_cast_pos.le
  rw [Finite.value, abs_mul, abs_sign, one_mul, abs_of_nonneg hq]

theorem Finite.value_eq_zero_iff (x : Finite) : x.value = 0 ↔ x.magnitude.quanta = 0 := by
  rw [← abs_eq_zero, Finite.abs_value, div_eq_zero_iff, or_iff_left quantaPerOne_cast_pos.ne',
    Nat.cast_eq_zero]

theorem Finite.value_neg_iff (x : Finite) : x.value < 0 ↔ x.settled.negative = true := by
  have hone := quantaPerOne_cast_pos
  unfold Finite.value Finite.settled
  cases x.negative with
  | false =>
    simp only [Bool.false_eq_true, if_false, one_mul, Bool.false_and, iff_false, not_lt]
    exact div_nonneg (Nat.cast_nonneg _) hone.le
  | true =>
    simp only [if_true, neg_one_mul, neg_lt_zero, Bool.true_and, Bool.not_eq_true',
      decide_eq_false_iff_not, div_pos_iff_of_pos_right hone, Nat.cast_pos]
    exact Nat.pos_iff_ne_zero

/-- A whole double is its whole part with its sign. -/
theorem Finite.value_of_integral {x : Finite} (hx : x.magnitude.Integral) :
    x.value = ((if x.negative then -(x.magnitude.floor : ℤ) else x.magnitude.floor : ℤ) : ℚ) := by
  have hone := quantaPerOne_cast_pos
  have hfloor : (x.magnitude.quanta : ℚ) / quantaPerOne = x.magnitude.floor := by
    rw [← Magnitude.quanta_of_integral hx, Nat.cast_mul, mul_div_assoc, div_self hone.ne', mul_one]
  rw [Finite.value, hfloor]
  split
  · rw [neg_one_mul, Int.cast_neg, Int.cast_natCast]
  · rw [one_mul, Int.cast_natCast]

theorem Finite.exists_value_eq_intCast_iff (x : Finite) :
    (∃ k : ℤ, x.value = k) ↔ x.magnitude.Integral := by
  have hone := quantaPerOne_cast_pos
  constructor
  · rintro ⟨k, hk⟩
    have habs := x.abs_value
    rw [hk, eq_div_iff hone.ne', ← Int.cast_abs, Int.abs_eq_natAbs, Int.cast_natCast] at habs
    have hq : k.natAbs * quantaPerOne = x.magnitude.quanta := by exact_mod_cast habs
    rw [Magnitude.Integral, ← hq, Nat.mul_mod_left]
  · intro hi
    exact ⟨_, value_of_integral hi⟩

/-- A double other than zero has the sign of what is rounded to it, since zero is nearer to anything of
the other sign. -/
theorem RoundsTo.value_mul_pos (h : RoundsTo r x) (hx : x.value ≠ 0) : 0 < x.value * r := by
  have hzero : Representable 0 := ⟨0, 0, by norm_num, by rw [Int.cast_zero, zero_mul, zero_div]⟩
  have hle := sq_le_sq.mpr (h.nearest 0 hzero)
  have hpos : 0 < x.value ^ 2 := by positivity
  linarith

theorem abs_sub_eq_of_mul_nonneg {a b : ℚ} (h : 0 ≤ a * b) : |a - b| = |(|a| - |b|)| := by
  have hab : |a| * |b| = a * b := by rw [← abs_mul, abs_of_nonneg h]
  rw [← sq_eq_sq_iff_abs_eq_abs, sub_sq, sub_sq, sq_abs, sq_abs, mul_assoc 2 |a|, hab, mul_assoc]

variable {num den : Nat}

/-- Rounding of rational numbers is rounding of the quotients of quanta that they are. -/
theorem roundsTo_iff (hd : 0 < den) (hr : |r| * quantaPerOne = num / den)
    (hs : 0 ≤ x.value * r) : RoundsTo r x ↔ Double.nearest num den = x.magnitude.quanta := by
  have hone := quantaPerOne_cast_pos
  have hdist {y : ℚ} {p : Nat} (hy : |y| = p / quantaPerOne) :
      |(|y| - |r|)| = |(p : ℚ) - num / den| / quantaPerOne := by
    rw [hy, ← hr, div_sub' hone.ne', abs_div, abs_of_pos hone, mul_comm]
  have hx : |x.value - r| = |(x.magnitude.quanta : ℚ) - num / den| / quantaPerOne := by
    rw [abs_sub_eq_of_mul_nonneg hs, hdist x.abs_value]
  rw [← isNearest_iff hd, isNearest_iff_abs hd]
  constructor
  · intro h
    refine ⟨x.magnitude.aligned, ?_⟩
    intro p hp
    -- The magnitude with the sign of what is rounded.
    obtain ⟨y, hy, hyr⟩ : ∃ y : ℚ, |y| = p / quantaPerOne ∧ 0 ≤ y * r := by
      have hp0 : (0 : ℚ) ≤ p / quantaPerOne := div_nonneg p.cast_nonneg hone.le
      rcases le_total 0 r with h0 | h0
      · exact ⟨p / quantaPerOne, abs_of_nonneg hp0, mul_nonneg hp0 h0⟩
      · refine ⟨-(p / quantaPerOne), by rw [abs_neg, abs_of_nonneg hp0], ?_⟩
        exact mul_nonneg_of_nonpos_of_nonpos (neg_nonpos.mpr hp0) h0
    have hrep : Representable y := (representable_iff y).mpr ⟨p, hp, hy⟩
    have hyd : |y - r| = |(p : ℚ) - num / den| / quantaPerOne := by
      rw [abs_sub_eq_of_mul_nonneg hyr, hdist hy]
    constructor
    · have hle := h.nearest y hrep
      rwa [hx, hyd, div_le_div_iff_of_pos_right hone] at hle
    · intro hne he
      apply h.even y hrep
      · rintro rfl
        rw [Finite.abs_value, div_left_inj' hone.ne'] at hy
        exact hne (Nat.cast_injective hy).symm
      · rw [hx, hyd, he]
  · rintro ⟨-, h⟩
    constructor
    · intro y hy
      obtain ⟨p, hp, hyp⟩ := (representable_iff y).mp hy
      calc
        |x.value - r| = |(x.magnitude.quanta : ℚ) - num / den| / quantaPerOne := hx
        _ ≤ |(p : ℚ) - num / den| / quantaPerOne := by
          rw [div_le_div_iff_of_pos_right hone]
          exact (h p hp).1
        _ = |(|y| - |r|)| := (hdist hyp).symm
        _ ≤ |y - r| := abs_abs_sub_abs_le y r
    · intro y hy hne he
      obtain ⟨p, hp, hyp⟩ := (representable_iff y).mp hy
      by_cases hpq : p = x.magnitude.quanta
      · -- Only zero is midway between a number and its opposite, and zero is rounded to itself.
        have hneg : y = -x.value := by
          have habs : |y| = |x.value| := by rw [hyp, hpq, Finite.abs_value]
          exact (abs_eq_abs.mp habs).resolve_left hne
        have hr0 : r = 0 := by
          have hmid := (abs_sub_eq_abs_sub_iff hne.symm).mp he
          rw [hneg] at hmid
          linarith
        have hv0 : (num : ℚ) / den = 0 := by rw [← hr, hr0, abs_zero, zero_mul]
        have hq0 := (h 0 (Nat.zero_mod _)).1
        rw [hv0, Nat.cast_zero, sub_zero, sub_zero, abs_zero, abs_nonpos_iff, Nat.cast_eq_zero] at hq0
        rw [hq0, significand, Nat.zero_div]
      · apply (h p hp).2 hpq
        apply le_antisymm (h p hp).1
        rw [← div_le_div_iff_of_pos_right hone, ← hx, he, ← hdist hyp]
        exact abs_abs_sub_abs_le y r

end Signed

end Rationals

end AccessRules.Double
