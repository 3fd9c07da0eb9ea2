import AccessRules.Proofs.Decimal.Scaling
import AccessRules.Proofs.Double.Nearest

/-! No decimal with fewer digits than the shortest one rounds to the same magnitude. The shortest
decimal is a whole number exactly if the magnitude is, and up to `2 ^ 53` it is the same number. -/
namespace AccessRules.Decimal

open Double (nearest)

variable {tie : Tie} {q p l c d : Nat}

section Grids

/-- Whatever lies between two numbers that round to a magnitude rounds to it. -/
theorem nearest_of_between {a b v : Nat} (ha : nearest a unitsPerQuantum = q)
    (hb : nearest b unitsPerQuantum = q) (hav : a ≤ v) (hvb : v ≤ b) :
    nearest v unitsPerQuantum = q := by
  have h₁ := Double.nearest_mono unitsPerQuantum_pos hav
  have h₂ := Double.nearest_mono unitsPerQuantum_pos hvb
  omega

/-- If any point of a grid reads back, then so does one of the two around the magnitude. -/
theorem onGrid?_ne_none_of_readsBack (tie : Tie) (hq : Double.Aligned q) (h : ReadsBack q p d) :
    onGrid? tie q p ≠ none := by
  have hself := Double.nearest_mul_of_aligned hq unitsPerQuantum_pos
  have hpow : 0 < Nat.pow 10 p := Nat.pow_pos (by decide)
  have hsplit := Nat.div_add_mod' (q * unitsPerQuantum) (Nat.pow 10 p)
  have hrest := Nat.mod_lt (q * unitsPerQuantum) hpow
  by_cases hb : ReadsBack q p (q * unitsPerQuantum / Nat.pow 10 p)
  · exact onGrid?_ne_none tie hb
  · have hlt : q * unitsPerQuantum / Nat.pow 10 p < d := by
      rw [← Nat.not_le]
      intro hd
      exact hb (nearest_of_between h hself (Nat.mul_le_mul_right _ hd) (by omega))
    have habove : ReadsBack q p (q * unitsPerQuantum / Nat.pow 10 p + 1) := by
      refine nearest_of_between hself h ?_ (Nat.mul_le_mul_right _ hlt)
      rw [Nat.add_mul]
      omega
    simp only [onGrid?, if_neg hb, if_pos habove]
    exact Option.some_ne_none _

theorem aligned_two_mul (hq : Double.Aligned q) : Double.Aligned (2 * q) := by
  have hs := Double.div_ulp_lt q
  have hq' := Double.div_ulp_mul hq
  have h := Double.aligned_mul_two_pow (q / Double.ulp q) (q.log2 - 52 + 1) (Nat.le_of_lt hs)
  rwa [Nat.pow_eq, Nat.pow_succ, ← Nat.mul_assoc, ← Nat.pow_eq, ← Double.ulp, hq', Nat.mul_comm] at h

theorem pos_of_readsBack (hq : 0 < q) (h : ReadsBack q p d) : 0 < d := by
  apply Nat.pos_of_ne_zero
  rintro rfl
  have hz := Double.nearest_mul_of_aligned (Nat.zero_mod _) unitsPerQuantum_pos
  rw [ReadsBack, Nat.zero_mul, ← Nat.zero_mul unitsPerQuantum, hz] at h
  omega

/-- Every point of a grid that is coarser than the magnitude, other than zero, is too large. -/
theorem le_coarsest_of_readsBack (hq : Double.Aligned q) (hpos : 0 < q) (h : ReadsBack q p d) :
    p ≤ coarsest (q * unitsPerQuantum) := by
  rw [← Nat.not_lt]
  intro hlt
  have hd := pos_of_readsBack hpos h
  have hc := lt_ten_pow_coarsest (q * unitsPerQuantum)
  have hle : 2 * q * unitsPerQuantum ≤ d * Nat.pow 10 p := by
    calc
      2 * q * unitsPerQuantum = 2 * (q * unitsPerQuantum) := Nat.mul_assoc _ _ _
      _ ≤ 10 * 10 ^ coarsest (q * unitsPerQuantum) := Nat.mul_le_mul (by decide) (Nat.le_of_lt hc)
      _ = 10 ^ (coarsest (q * unitsPerQuantum) + 1) := Nat.pow_succ'.symm
      _ ≤ 10 ^ p := Nat.pow_le_pow_right (by decide) hlt
      _ ≤ d * Nat.pow 10 p := Nat.le_mul_of_pos_left _ hd
  have hn := Double.le_nearest_of_aligned_le (aligned_two_mul hq) unitsPerQuantum_pos hle
  rw [ReadsBack] at h
  omega

end Grids

section Coarsest

/-- The point reads back, and no coarser grid has a point that does. -/
structure IsCoarsest (q l c : Nat) : Prop where
  readsBack : ReadsBack q l c
  le : ∀ p d, ReadsBack q p d → p ≤ l

theorem exists_shortestFrom (tie : Tie) (q p : Nat) :
    ∃ l c, shortestFrom tie q p = ofUnits c l ∧
      (l = 0 ∧ c = q * unitsPerQuantum ∨ onGrid? tie q l = some c) := by
  induction p with
  | zero => exact ⟨0, _, rfl, Or.inl ⟨rfl, rfl⟩⟩
  | succ p ih =>
    rw [shortestFrom_succ]
    cases hg : onGrid? tie q (p + 1) with
    | some c => exact ⟨p + 1, c, rfl, Or.inr hg⟩
    | none => exact ih

/-- The search finds the coarsest grid. -/
theorem exists_shortest_eq (tie : Tie) {m : Magnitude} (hm : m.quanta ≠ 0) :
    ∃ l c, shortest tie m = ofUnits c l ∧ IsCoarsest m.quanta l c ∧
      (l = 0 ∧ c = m.quanta * unitsPerQuantum ∨ onGrid? tie m.quanta l = some c) := by
  obtain ⟨l, c, hs, hc⟩ :=
    exists_shortestFrom tie m.quanta (coarsest (m.quanta * unitsPerQuantum))
  have hshort : shortest tie m = ofUnits c l := by rw [shortest, if_neg hm, hs]
  refine ⟨l, c, hshort, ⟨?_, ?_⟩, hc⟩
  · rcases hc with ⟨hl, hc⟩ | hc
    · rw [hl, hc]
      exact readsBack_finest m.aligned
    · exact readsBack_of_onGrid? hc
  · intro p d h
    rcases Nat.eq_zero_or_pos p with rfl | hp
    · exact Nat.zero_le l
    · obtain ⟨l', c', hle, -, hs'⟩ := exists_shortestFrom_eq hp
        (le_coarsest_of_readsBack m.aligned (Nat.pos_of_ne_zero hm) h)
        (onGrid?_ne_none_of_readsBack tie m.aligned h)
      rw [hs] at hs'
      have he := congrArg exponent hs'
      simp only [ofUnits] at he
      omega

/-- A final zero would be left out on the next grid. -/
theorem IsCoarsest.mod_ten_ne (h : IsCoarsest q l c) : c % 10 ≠ 0 := by
  intro hz
  have hsucc : ReadsBack q (l + 1) (c / 10) := by
    have hc : c / 10 * Nat.pow 10 (l + 1) = c * Nat.pow 10 l := by
      rw [Nat.pow_eq, Nat.pow_succ', ← Nat.mul_assoc, Nat.div_mul_cancel (Nat.dvd_of_mod_eq_zero hz),
        Nat.pow_eq]
    rw [ReadsBack, hc]
    exact h.readsBack
  have hle := h.le _ _ hsucc
  omega

/-- With more digits than another decimal that reads back, a power of ten would lie between the two,
and it is on a coarser grid. -/
theorem IsCoarsest.lt_ten_pow {n : Nat} (h : IsCoarsest q l c) (hq : 0 < q) (hd : ReadsBack q p d)
    (hn : d < 10 ^ n) : c < 10 ^ n := by
  have hpos := pos_of_readsBack hq hd
  have hpl := h.le p d hd
  rw [← Nat.not_le]
  intro hle
  have hone : ReadsBack q (n + l) 1 := by
    have hsplit : 1 * Nat.pow 10 (n + l) = 10 ^ n * 10 ^ l := by
      rw [Nat.one_mul, Nat.pow_eq, Nat.pow_add]
    rw [ReadsBack, hsplit]
    apply nearest_of_between hd h.readsBack
    · exact Nat.mul_le_mul (Nat.le_of_lt hn) (Nat.pow_le_pow_right (by decide) hpl)
    · exact Nat.mul_le_mul_right _ hle
  have hle' := h.le _ _ hone
  have hn0 : n = 0 := by omega
  rw [hn0, Nat.pow_zero] at hn
  omega

end Coarsest

section Digits

variable {e : Decimal}

/-- The decimal as a quotient of quanta. -/
theorem nearest_units (hlow : -1074 ≤ e.exponent) :
    nearest e.units unitsPerQuantum =
      nearest (e.digits * Nat.pow 10 e.exponent.toNat * quantaPerOne) (Nat.pow 10 e.places) := by
  rcases Int.lt_or_le e.exponent 0 with hneg | hnonneg
  · have hplaces : e.places = e.exponent.natAbs := by
      unfold places
      omega
    have hzero : e.exponent.toNat = 0 := by omega
    rw [nearest_units_of_neg hneg hlow, hplaces, hzero]
    simp only [Nat.pow_eq, Nat.pow_zero, Nat.mul_one]
  · have hplaces : e.places = 0 := by
      unfold places
      omega
    have hone : Nat.pow 10 0 = 1 := rfl
    rw [nearest_units_of_nonneg hnonneg, hplaces, hone]

theorem nearest_eq_zero {num den : Nat} (h : 2 * num < den) : nearest num den = 0 := by
  have hdiv : num / den = 0 := Nat.div_eq_of_lt (by omega)
  have hulp : Double.ulp 0 = 1 := rfl
  rw [nearest, hdiv, hulp, Nat.mul_one, Nat.mul_one, Double.roundHalfEven, hdiv,
    Nat.mod_eq_of_lt (by omega), if_pos h]

/-- A decimal below the units takes hundreds of digits to come near to a magnitude. -/
theorem lt_digits_of_lt (hlow : e.exponent < -1074) (hq : 0 < q)
    (h : nearest (e.digits * Nat.pow 10 e.exponent.toNat * quantaPerOne) (Nat.pow 10 e.places) = q) :
    1000000000000000000 < e.digits := by
  have hhalf : Nat.pow 10 e.places ≤ 2 * (e.digits * quantaPerOne) := by
    rw [← Nat.not_lt]
    intro hlt
    have hzero : e.exponent.toNat = 0 := by omega
    rw [hzero, Nat.pow_eq, Nat.pow_zero, Nat.mul_one, nearest_eq_zero hlt] at h
    omega
  have hpow : 10 * unitsPerQuantum * quantaPerOne ≤ Nat.pow 10 e.places := by
    obtain ⟨k, hk, hten⟩ := exists_ten_pow_eq
    calc
      10 * unitsPerQuantum * quantaPerOne = 10 * (quantaPerOne * unitsPerQuantum) := by
        rw [Nat.mul_assoc, Nat.mul_comm unitsPerQuantum]
      _ = 10 * 10 ^ k := by rw [← hten, Nat.pow_eq]
      _ = 10 ^ (k + 1) := Nat.pow_succ'.symm
      _ ≤ 10 ^ e.places := Nat.pow_le_pow_right (by decide) (by unfold places; omega)
  have hdigits : 10 * unitsPerQuantum ≤ 2 * e.digits := by
    apply Nat.le_of_mul_le_mul_right _ quantaPerOne_pos
    rw [Nat.mul_assoc 2]
    exact Nat.le_trans hpow hhalf
  have hunits := le_unitsPerQuantum
  omega

/-- No decimal that rounds to the magnitude has fewer digits than the shortest. -/
theorem digits_shortest_lt (tie : Tie) {m : Magnitude} (hm : m.quanta ≠ 0) {n : Nat}
    (h : nearest (e.digits * Nat.pow 10 e.exponent.toNat * quantaPerOne) (Nat.pow 10 e.places) =
      m.quanta) (hn : e.digits < 10 ^ n) : (shortest tie m).digits < 10 ^ n := by
  have hpos : 0 < m.quanta := Nat.pos_of_ne_zero hm
  rcases Int.lt_or_le e.exponent (-1074) with hlow | hlow
  · have hlt := lt_digits_of_lt hlow hpos h
    have hle := (digits_shortest tie hm).2
    omega
  · obtain ⟨l, c, hs, hc, -⟩ := exists_shortest_eq tie hm
    have hread : ReadsBack m.quanta (e.exponent + 1074).toNat e.digits := by
      rw [← h, ← nearest_units hlow]
      rfl
    rw [hs]
    exact hc.lt_ten_pow hpos hread hn

end Digits

section Integral

/-- A whole number is rounded to a whole number. -/
theorem quantaPerOne_dvd_nearest (n : Nat) : quantaPerOne ∣ nearest (n * quantaPerOne) 1 := by
  obtain ⟨k, hone⟩ := Json.Numeral.exists_quantaPerOne_eq
  rcases Nat.le_total ((n * quantaPerOne).log2 - 52) k with hle | hle
  · have ha : Double.Aligned (n * quantaPerOne) := by
      have hdvd : Double.ulp (n * quantaPerOne) ∣ quantaPerOne := by
        rw [hone] at hle ⊢
        exact Nat.pow_dvd_pow 2 hle
      exact Nat.mod_eq_zero_of_dvd (Nat.dvd_trans hdvd (Nat.dvd_mul_left _ _))
    have h := Double.nearest_mul_of_aligned ha Nat.one_pos
    rw [Nat.mul_one] at h
    rw [h]
    exact Nat.dvd_mul_left _ _
  · have hdvd : quantaPerOne ∣ Double.ulp (n * quantaPerOne) := by
      rw [hone] at hle ⊢
      exact Nat.pow_dvd_pow 2 hle
    rw [nearest, Nat.div_one]
    exact Nat.dvd_trans hdvd (Nat.dvd_mul_left _ _)

/-- The shortest decimal has no places exactly if the magnitude is a whole number. -/
theorem exponent_shortest_nonneg_iff (tie : Tie) (m : Magnitude) :
    0 ≤ (shortest tie m).exponent ↔ m.Integral := by
  constructor
  · intro he
    have h := quantaPerOne_dvd_nearest
      ((shortest tie m).digits * Nat.pow 10 (shortest tie m).exponent.toNat)
    rw [nearest_shortest he] at h
    exact Nat.mod_eq_zero_of_dvd h
  · intro hi
    by_cases hm : m.quanta = 0
    · rw [shortest, if_pos hm]
    · obtain ⟨l, c, hs, hc, -⟩ := exists_shortest_eq tie hm
      obtain ⟨k, hk, hten⟩ := exists_ten_pow_eq
      have hread : ReadsBack m.quanta k m.floor := by
        rw [ReadsBack, hten, ← Nat.mul_assoc, Magnitude.quanta_of_integral hi]
        exact Double.nearest_mul_of_aligned m.aligned unitsPerQuantum_pos
      have hle := hc.le _ _ hread
      rw [hs, ofUnits]
      simp only
      omega

/-- A magnitude on the grid is its own nearest point. -/
theorem eq_of_onGrid? {b : Nat} (h : onGrid? tie q p = some c) (hq : Double.Aligned q)
    (hb : q * unitsPerQuantum = b * Nat.pow 10 p) : c = b := by
  have hpow : 0 < Nat.pow 10 p := Nat.pow_pos (by decide)
  have hread : ReadsBack q p b := by
    rw [ReadsBack, ← hb]
    exact Double.nearest_mul_of_aligned hq unitsPerQuantum_pos
  have hup : ¬ tie.GoesUp b 0 (Nat.pow 10 p) := by
    unfold Tie.GoesUp
    omega
  simp only [onGrid?, hb, Nat.mul_div_cancel b hpow, Nat.mul_mod_left, if_pos hread, hup, and_false,
    if_false, Option.some.injEq] at h
  exact h.symm

/-- Of the integers above `2 ^ 53` only the next one may be rounded down to it. -/
theorem eq_of_nearest_integer {j n : Nat} (hn : n ≤ 9007199254740992)
    (h : nearest (j * quantaPerOne) 1 = n * quantaPerOne) : j = n ∨ j = 9007199254740993 := by
  rcases Nat.lt_or_ge 9007199254740992 j with hj | hj
  · have hlt : j < 9007199254740994 := by
      rw [← Nat.not_le]
      intro hle
      have ha := aligned_two_mul (aligned_integer (n := 4503599627370497) (by decide))
      have hmul : 2 * (4503599627370497 * quantaPerOne) * 1 ≤ j * quantaPerOne := by
        rw [Nat.mul_one, ← Nat.mul_assoc]
        exact Nat.mul_le_mul_right _ hle
      have hge := Double.le_nearest_of_aligned_le ha Nat.one_pos hmul
      rw [h, ← Nat.mul_assoc] at hge
      have := Nat.le_of_mul_le_mul_right hge quantaPerOne_pos
      omega
    omega
  · left
    have hself := Double.nearest_mul_of_aligned (aligned_integer hj) Nat.one_pos
    rw [Nat.mul_one, h] at hself
    exact (Nat.eq_of_mul_eq_mul_right quantaPerOne_pos hself).symm

/-- Up to `2 ^ 53` no other integer stands in for an integer. The one that is rounded to `2 ^ 53` is
not on a coarser grid, and on the grid of the integers `2 ^ 53` itself is found. -/
theorem shortest_integer (tie : Tie) {m : Magnitude} {n : Nat} (hq : m.quanta = n * quantaPerOne)
    (hn : n ≤ 9007199254740992) :
    (shortest tie m).places = 0 ∧
      (shortest tie m).digits * Nat.pow 10 (shortest tie m).exponent.toNat = n := by
  have hi : m.Integral := by rw [Magnitude.Integral, hq, Nat.mul_mod_left]
  have he : 0 ≤ (shortest tie m).exponent := (exponent_shortest_nonneg_iff tie m).mpr hi
  refine ⟨by unfold places; omega, ?_⟩
  have hnear := nearest_shortest he
  rw [hq] at hnear
  rcases eq_of_nearest_integer hn hnear with h | h
  · exact h
  · have hm : m.quanta ≠ 0 := by
      intro hz
      rw [shortest, if_pos hz, Nat.zero_mul] at h
      omega
    obtain ⟨l, c, hs, -, hgrid⟩ := exists_shortest_eq tie hm
    obtain ⟨k, hk, hten⟩ := exists_ten_pow_eq
    rw [hs, ofUnits] at he h ⊢
    simp only at he h ⊢
    have hzero : ((l : Int) - 1074).toNat = 0 := by
      by_contra hne
      obtain ⟨e, he'⟩ := Nat.exists_eq_succ_of_ne_zero hne
      rw [he', Nat.pow_eq, Nat.pow_succ, ← Nat.mul_assoc] at h
      omega
    have hl : l = k := by omega
    have hc : c = n := by
      rcases hgrid with ⟨hl0, -⟩ | hgrid
      · omega
      · apply eq_of_onGrid? hgrid m.aligned
        rw [hl, hten, hq, Nat.mul_assoc]
    rw [hzero, hc, Nat.pow_eq, Nat.pow_zero, Nat.mul_one]

theorem plain_shortest_integer (tie : Tie) {m : Magnitude} {n : Nat}
    (hq : m.quanta = n * quantaPerOne) (hn : n ≤ 9007199254740992) :
    (shortest tie m).plain = Nat.toDigits 10 n := by
  obtain ⟨hp, hd⟩ := shortest_integer tie hq hn
  rw [plain, if_pos hp, whole, hd, hp, Nat.pow_eq, Nat.pow_zero, Nat.div_one]

end Integral

end AccessRules.Decimal
