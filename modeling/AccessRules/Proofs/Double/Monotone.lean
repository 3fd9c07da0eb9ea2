import AccessRules.Proofs.Double.Exact

/-! Rounding depends only on the value of a quotient, keeps order, and takes whatever is close to a
magnitude to this magnitude. -/
namespace AccessRules.Double

theorem roundHalfEven_mul_right (num den : Nat) {c : Nat} (hc : 0 < c) :
    roundHalfEven (num * c) (den * c) = roundHalfEven num den := by
  have hq : num * c / (den * c) = num / den := Nat.mul_div_mul_right num den hc
  have hr : 2 * (num * c % (den * c)) = 2 * (num % den) * c := by
    rw [Nat.mul_mod_mul_right, Nat.mul_assoc]
  unfold roundHalfEven
  simp only [hq, hr, Nat.mul_lt_mul_right hc]

theorem roundHalfEven_mono {a b : Nat} (den : Nat) (h : a ≤ b) :
    roundHalfEven a den ≤ roundHalfEven b den := by
  have hq : a / den ≤ b / den := Nat.div_le_div_right h
  have ha := (roundHalfEven_bounds a den).2
  have hb := (roundHalfEven_bounds b den).1
  rcases Nat.lt_or_eq_of_le hq with hlt | heq
  · omega
  · -- With the same whole part, the larger remainder is rounded up no less often.
    have hr : a % den ≤ b % den := by
      have hma := Nat.div_add_mod a den
      have hmb := Nat.div_add_mod b den
      rw [heq] at hma
      omega
    unfold roundHalfEven
    rw [heq]
    repeat' split
    all_goals omega

/-- A value less than half a step below a multiple of the step is rounded to it. -/
theorem roundHalfEven_of_close {v k den : Nat} (hv : v ≤ k * den)
    (hc : 2 * (k * den - v) < den) : roundHalfEven v den = k := by
  have hd : 0 < den := by omega
  rcases Nat.eq_or_lt_of_le hv with rfl | hlt
  · exact roundHalfEven_mul k hd
  · obtain ⟨j, rfl⟩ : ∃ j, k = j + 1 := by
      refine ⟨k - 1, ?_⟩
      have hk : k ≠ 0 := by
        rintro rfl
        omega
      omega
    rw [Nat.add_mul, Nat.one_mul] at hv hc hlt
    have hq : v / den = j := by
      apply Nat.div_eq_of_lt_le
      · omega
      · rw [Nat.add_mul, Nat.one_mul]
        omega
    have hm := Nat.div_add_mod v den
    rw [hq, Nat.mul_comm] at hm
    unfold roundHalfEven
    rw [hq, if_neg (by omega), if_pos (by omega)]

theorem nearest_mul_right (num den : Nat) {c : Nat} (hc : 0 < c) :
    nearest (num * c) (den * c) = nearest num den := by
  have hq : num * c / (den * c) = num / den := Nat.mul_div_mul_right num den hc
  have hd : den * c * ulp (num / den) = den * ulp (num / den) * c := Nat.mul_right_comm _ _ _
  unfold nearest
  rw [hq, hd, roundHalfEven_mul_right _ _ hc]

theorem log2_mono {a b : Nat} (h : a ≤ b) : a.log2 ≤ b.log2 := by
  by_cases ha : a = 0
  · simp [ha]
  · have hb : b ≠ 0 := by omega
    rw [Nat.le_log2 hb]
    exact Nat.le_trans (Nat.log2_self_le ha) h

/-- Below a power of two that is a multiple of the steps there, nothing is rounded above it. -/
theorem nearest_le_of_lt {num den bound : Nat} (hd : 0 < den) (hb : ulp (num / den) ∣ bound)
    (h : num < bound * den) : nearest num den ≤ bound := by
  obtain ⟨k, rfl⟩ := hb
  have hu := ulp_pos (num / den)
  have hlt : num / (den * ulp (num / den)) < k := by
    rw [Nat.div_lt_iff_lt_mul (Nat.mul_pos hd hu)]
    calc
      num < ulp (num / den) * k * den := h
      _ = k * (den * ulp (num / den)) := by ac_rfl
  have hr := (roundHalfEven_bounds num (den * ulp (num / den))).2
  unfold nearest
  rw [Nat.mul_comm (ulp _) k]
  exact Nat.mul_le_mul_right _ (by omega)

theorem le_nearest_of_le {num den bound : Nat} (hd : 0 < den) (hb : ulp (num / den) ∣ bound)
    (h : bound * den ≤ num) : bound ≤ nearest num den := by
  obtain ⟨k, rfl⟩ := hb
  have hu := ulp_pos (num / den)
  have hle : k ≤ num / (den * ulp (num / den)) := by
    rw [Nat.le_div_iff_mul_le (Nat.mul_pos hd hu)]
    calc
      k * (den * ulp (num / den)) = ulp (num / den) * k * den := by ac_rfl
      _ ≤ num := h
  have hr := (roundHalfEven_bounds num (den * ulp (num / den))).1
  unfold nearest
  rw [Nat.mul_comm (ulp _) k]
  exact Nat.mul_le_mul_right _ (by omega)

theorem nearest_mono {a b den : Nat} (hd : 0 < den) (h : a ≤ b) :
    nearest a den ≤ nearest b den := by
  have hq : a / den ≤ b / den := Nat.div_le_div_right h
  have hl := log2_mono hq
  by_cases hu : ulp (a / den) = ulp (b / den)
  · unfold nearest
    rw [hu]
    exact Nat.mul_le_mul_right _ (roundHalfEven_mono _ h)
  · -- The steps differ, so a power of two lies between the two quotients.
    have hlt : (a / den).log2 - 52 < (b / den).log2 - 52 := by
      apply Nat.lt_of_le_of_ne (by omega)
      intro he
      apply hu
      unfold ulp
      rw [he]
    have hb0 : b / den ≠ 0 := by
      intro hz
      rw [hz] at hlt
      simp at hlt
    have hbelow : a < 2 ^ (b / den).log2 * den := by
      rw [← Nat.div_lt_iff_lt_mul hd]
      have hs : a / den < 2 ^ ((a / den).log2 + 1) := Nat.lt_log2_self
      exact Nat.lt_of_lt_of_le hs (Nat.pow_le_pow_right (by decide) (by omega))
    have habove : 2 ^ (b / den).log2 * den ≤ b := by
      rw [← Nat.le_div_iff_mul_le hd]
      exact Nat.log2_self_le hb0
    have hda : ulp (a / den) ∣ 2 ^ (b / den).log2 := Nat.pow_dvd_pow 2 (by omega)
    have hdb : ulp (b / den) ∣ 2 ^ (b / den).log2 := Nat.pow_dvd_pow 2 (by omega)
    exact Nat.le_trans (nearest_le_of_lt hd hda hbelow) (le_nearest_of_le hd hdb habove)

section Aligned

variable {q num den : Nat}

theorem nearest_le_of_le_aligned (hq : Aligned q) (hd : 0 < den) (h : num ≤ q * den) :
    nearest num den ≤ q := by
  have hm := nearest_mono hd h
  rwa [nearest_mul_of_aligned hq hd] at hm

theorem le_nearest_of_aligned_le (hq : Aligned q) (hd : 0 < den) (h : q * den ≤ num) :
    q ≤ nearest num den := by
  have hm := nearest_mono hd h
  rwa [nearest_mul_of_aligned hq hd] at hm

/-- Steps at most double from half of a magnitude to the magnitude. -/
theorem ulp_le_two_mul {a : Nat} (hq : 0 < q) (h : q ≤ 2 * a + 1) : ulp q ≤ 2 * ulp a := by
  have hs : a < 2 ^ (a.log2 + 1) := Nat.lt_log2_self
  have hl : q.log2 < a.log2 + 2 := by
    rw [Nat.log2_lt (by omega), Nat.pow_succ]
    omega
  unfold ulp
  simp only [Nat.pow_eq]
  calc
    2 ^ (q.log2 - 52) ≤ 2 ^ (a.log2 - 52 + 1) := Nat.pow_le_pow_right (by decide) (by omega)
    _ = 2 * 2 ^ (a.log2 - 52) := Nat.pow_succ'

/-- A value less than a quarter of a step below a magnitude is rounded to it. At a power of two the
steps below are half as large. -/
theorem nearest_of_close (hq : Aligned q) (hd : 0 < den) (hle : num ≤ q * den)
    (hc : 4 * (q * den - num) < ulp q * den) : nearest num den = q := by
  rcases Nat.eq_zero_or_pos q with rfl | hpos
  · have hz : num = 0 := by simpa using hle
    have hn := nearest_mul_of_aligned hq hd
    rw [Nat.zero_mul] at hn
    rw [hz, hn]
  have hself : ulp q ≤ q := by
    unfold ulp
    rw [Nat.pow_eq]
    exact Nat.le_trans (Nat.pow_le_pow_right (by decide) (by omega)) (Nat.log2_self_le (by omega))
  -- The value is more than half of the magnitude, so its steps are at least half as large.
  have hhalf : q ≤ 2 * (num / den) + 1 := by
    have hm := Nat.div_add_mod num den
    have hr := Nat.mod_lt num hd
    have hs : ulp q * den ≤ q * den := Nat.mul_le_mul_right den hself
    have hlt : q * den < (2 * (num / den) + 2) * den := by
      rw [Nat.add_mul, Nat.mul_assoc, Nat.mul_comm (num / den)]
      omega
    have := Nat.lt_of_mul_lt_mul_right hlt
    omega
  have hu := ulp_le_two_mul hpos hhalf
  have hdvd : ulp (num / den) ∣ q := by
    have hn : num / den ≤ q := Nat.div_le_of_le_mul (by rwa [Nat.mul_comm])
    have hl := log2_mono hn
    exact Nat.dvd_trans (Nat.pow_dvd_pow 2 (by omega)) (Nat.dvd_of_mod_eq_zero hq)
  obtain ⟨k, hk⟩ := hdvd
  have hs : q * den = k * (den * ulp (num / den)) := by
    calc
      q * den = ulp (num / den) * k * den := by rw [← hk]
      _ = k * (den * ulp (num / den)) := by ac_rfl
  have hstep : ulp q * den ≤ 2 * (den * ulp (num / den)) := by
    calc
      ulp q * den ≤ 2 * ulp (num / den) * den := Nat.mul_le_mul_right den hu
      _ = 2 * (den * ulp (num / den)) := by ac_rfl
  rw [hs] at hle hc
  unfold nearest
  rw [roundHalfEven_of_close hle (by omega), Nat.mul_comm, ← hk]

end Aligned

end AccessRules.Double
