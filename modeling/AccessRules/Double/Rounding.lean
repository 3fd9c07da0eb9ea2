/-! Exact round-to-nearest, ties-to-even, onto the grid of the doubles.

Magnitudes are counted in quanta of `2 ^ (-1074)`, the least positive double. Every finite double is
a natural number of quanta, so rounding a quotient is arithmetic on naturals. -/
namespace AccessRules.Double

/-- The quotient `num / den` as a natural number, a half going to the even neighbour. -/
def roundHalfEven (num den : Nat) : Nat :=
  if 2 * (num % den) < den then num / den
  else if den < 2 * (num % den) then num / den + 1
  else num / den + num / den % 2

theorem roundHalfEven_bounds (num den : Nat) :
    num / den ≤ roundHalfEven num den ∧ roundHalfEven num den ≤ num / den + 1 := by
  unfold roundHalfEven
  split
  · omega
  · split <;> omega

/-- Quanta between neighbouring doubles at magnitude `q`: significands have 53 bits. -/
def ulp (q : Nat) : Nat := Nat.pow 2 (q.log2 - 52)

theorem ulp_pos (q : Nat) : 0 < ulp q := Nat.two_pow_pos _

/-- The magnitude is a whole number of its own grid steps, so 53 bits hold it. -/
def Aligned (q : Nat) : Prop := q % ulp q = 0

instance (q : Nat) : Decidable (Aligned q) := inferInstanceAs (Decidable (_ = _))

/-- A significand of at most 53 bits, or the carry out of it, is aligned at every exponent. -/
theorem aligned_mul_two_pow (m k : Nat) (hm : m ≤ Nat.pow 2 53) :
    Aligned (m * Nat.pow 2 k) := by
  unfold Aligned ulp
  simp only [Nat.pow_eq] at hm ⊢
  apply Nat.mod_eq_zero_of_dvd
  by_cases hz : m = 0
  · simp [hz]
  rcases Nat.lt_or_eq_of_le hm with hlt | rfl
  · have hlog : (m * 2 ^ k).log2 < 53 + k := by
      apply (Nat.log2_lt (Nat.mul_ne_zero hz (Nat.ne_of_gt (Nat.two_pow_pos k)))).mpr
      rw [Nat.pow_add]
      exact Nat.mul_lt_mul_of_pos_right hlt (Nat.two_pow_pos k)
    exact Nat.dvd_trans (Nat.pow_dvd_pow 2 (by omega)) (Nat.dvd_mul_left _ _)
  · rw [← Nat.pow_add, Nat.log2_two_pow]
    exact Nat.pow_dvd_pow 2 (by omega)

/-- The grid point nearest to `num / den` quanta, whatever its size. -/
def nearest (num den : Nat) : Nat :=
  roundHalfEven num (den * ulp (num / den)) * ulp (num / den)

theorem div_ulp_lt (q : Nat) : q / ulp q < Nat.pow 2 53 := by
  unfold ulp
  simp only [Nat.pow_eq]
  rw [Nat.div_lt_iff_lt_mul (Nat.two_pow_pos _), ← Nat.pow_add]
  exact Nat.lt_of_lt_of_le Nat.lt_log2_self (Nat.pow_le_pow_right (by decide) (by omega))

theorem aligned_nearest (num den : Nat) : Aligned (nearest num den) := by
  have hq := div_ulp_lt (num / den)
  have hr := (roundHalfEven_bounds num (den * ulp (num / den))).2
  rw [Nat.div_div_eq_div_mul] at hq
  exact aligned_mul_two_pow _ _ (by omega)

end AccessRules.Double
