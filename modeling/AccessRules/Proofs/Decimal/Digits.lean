import AccessRules.Proofs.Decimal.ReadsBack
import AccessRules.Proofs.Double.Monotone
import Mathlib.Data.Nat.Log

/-! The shortest decimal of a magnitude has few digits: some grid whose steps are small next to the
magnitude has a hit, and the search stops there at the latest. -/
namespace AccessRules.Decimal

variable {tie : Tie} {q : Nat}

section Search

theorem shortestFrom_succ (tie : Tie) (q p : Nat) :
    shortestFrom tie q (p + 1) =
      ((onGrid? tie q (p + 1)).map (ofUnits · (p + 1))).getD (shortestFrom tie q p) := by
  unfold shortestFrom
  rw [List.range'_1_concat, List.reverse_append, List.findSome?_append, List.reverse_singleton,
    List.findSome?_singleton, Option.getD_or, Nat.add_comm 1 p]

/-- The search goes from coarse to fine, so it ends on a grid with a hit or on a coarser one. -/
theorem exists_shortestFrom_eq {k p : Nat} (hk : 0 < k) (hp : k ≤ p)
    (h : onGrid? tie q k ≠ none) :
    ∃ l c, k ≤ l ∧ onGrid? tie q l = some c ∧ shortestFrom tie q p = ofUnits c l := by
  induction p with
  | zero => omega
  | succ p ih =>
    rw [shortestFrom_succ]
    cases hg : onGrid? tie q (p + 1) with
    | some c =>
      rw [Option.map_some, Option.getD_some]
      exact ⟨p + 1, c, hp, hg, rfl⟩
    | none =>
      rw [Option.map_none, Option.getD_none]
      rcases Nat.lt_or_eq_of_le hp with hlt | rfl
      · exact ih (by omega)
      · exact (h hg).elim

end Search

section Grid

variable {p c : Nat}

theorem le_of_onGrid? (h : onGrid? tie q p = some c) :
    c ≤ q * unitsPerQuantum / Nat.pow 10 p + 1 := by
  simp only [onGrid?] at h
  repeat' split at h
  all_goals
    cases h
    try omega

theorem onGrid?_ne_none (tie : Tie) (h : ReadsBack q p (q * unitsPerQuantum / Nat.pow 10 p)) :
    onGrid? tie q p ≠ none := by
  simp only [onGrid?, if_pos h]
  split
  · exact Option.some_ne_none _
  · exact Option.some_ne_none _

/-- Seventeen more digits than the step of a grid bring its points within a quarter of a step of the
doubles. -/
theorem readsBack_below (hq : Double.Aligned q) (hp : Nat.pow 10 (p + 17) ≤ q * unitsPerQuantum) :
    ReadsBack q p (q * unitsPerQuantum / Nat.pow 10 p) := by
  have hu := unitsPerQuantum_pos
  have hpow : 0 < Nat.pow 10 p := Nat.pow_pos (by decide)
  have hm := Nat.div_add_mod' (q * unitsPerQuantum) (Nat.pow 10 p)
  have hr := Nat.mod_lt (q * unitsPerQuantum) hpow
  have hlt : q < 9007199254740992 * Double.ulp q := by
    have h := Double.div_ulp_lt q
    rwa [Nat.div_lt_iff_lt_mul (Double.ulp_pos q)] at h
  have hstep : 4 * Nat.pow 10 p < Double.ulp q * unitsPerQuantum := by
    have h₁ : q * unitsPerQuantum < 9007199254740992 * (Double.ulp q * unitsPerQuantum) := by
      rw [← Nat.mul_assoc]
      exact Nat.mul_lt_mul_of_pos_right hlt hu
    have h₂ : Nat.pow 10 (p + 17) = Nat.pow 10 p * 100000000000000000 := Nat.pow_add 10 p 17
    omega
  exact Double.nearest_of_close hq hu (by omega) (by omega)

end Grid

theorem div_ten_pow_lt {n p l : Nat} (hn : n < Nat.pow 10 (p + 18)) (hl : p ≤ l) :
    n / Nat.pow 10 l < 1000000000000000000 := by
  have hpow : 0 < Nat.pow 10 l := Nat.pow_pos (by decide)
  rw [Nat.div_lt_iff_lt_mul hpow]
  calc
    n < 10 ^ 18 * 10 ^ p := by rwa [← Nat.pow_add, Nat.add_comm 18, ← Nat.pow_eq]
    _ ≤ 10 ^ 18 * 10 ^ l := Nat.mul_le_mul_left _ (Nat.pow_le_pow_right (by decide) hl)

theorem le_unitsPerQuantum : 1000000000000000000 ≤ unitsPerQuantum := by
  have hk : 26 ≤ 1074 := by decide
  unfold unitsPerQuantum
  generalize 1074 = k at hk ⊢
  calc
    1000000000000000000 ≤ 5 ^ 26 := by decide
    _ ≤ Nat.pow 5 k := Nat.pow_le_pow_right (by decide) hk

/-- The digits are those of a positive number, of at most 19 digits. -/
theorem digits_shortest (tie : Tie) {m : Magnitude} (hm : m.quanta ≠ 0) :
    0 < (shortest tie m).digits ∧ (shortest tie m).digits ≤ 1000000000000000000 := by
  have hpos : 0 < m.quanta := Nat.pos_of_ne_zero hm
  have hround := (roundsTo_shortest tie m).2
  constructor
  · apply Nat.pos_of_ne_zero
    intro hz
    have hu : (shortest tie m).units = 0 * unitsPerQuantum := by
      rw [units, hz, Nat.zero_mul, Nat.zero_mul]
    rw [hu, Double.nearest_mul_of_aligned (Nat.zero_mod _) unitsPerQuantum_pos] at hround
    exact hm hround.symm
  · have hn : 1000000000000000000 ≤ m.quanta * unitsPerQuantum :=
      Nat.le_trans le_unitsPerQuantum (Nat.le_mul_of_pos_left _ hpos)
    have hne : m.quanta * unitsPerQuantum ≠ 0 := by omega
    -- The grid on which the magnitude has eighteen digits has a hit.
    obtain ⟨p, hlog⟩ : ∃ p, Nat.log 10 (m.quanta * unitsPerQuantum) = p + 17 + 1 := by
      have h18 : 18 ≤ Nat.log 10 (m.quanta * unitsPerQuantum) :=
        Nat.le_log_of_pow_le (by decide) hn
      exact ⟨Nat.log 10 (m.quanta * unitsPerQuantum) - 18, by omega⟩
    have hle : 10 ^ (p + 1 + 17) ≤ m.quanta * unitsPerQuantum := by
      have h := Nat.pow_log_le_self 10 hne
      rwa [hlog, Nat.add_right_comm] at h
    have hlt : m.quanta * unitsPerQuantum < 10 ^ (p + 1 + 18) := by
      have h := Nat.lt_pow_succ_log_self (b := 10) (by decide) (m.quanta * unitsPerQuantum)
      rwa [hlog, Nat.add_right_comm p 17 1] at h
    have hcoarse : p + 1 ≤ coarsest (m.quanta * unitsPerQuantum) := by
      have h := Nat.lt_of_le_of_lt hle (lt_ten_pow_coarsest _)
      rw [Nat.pow_eq, Nat.pow_lt_pow_iff_right (by decide)] at h
      omega
    obtain ⟨l, c, hl, hc, hs⟩ := exists_shortestFrom_eq (Nat.succ_pos p) hcoarse
      (onGrid?_ne_none tie (readsBack_below m.aligned hle))
    have hdiv := div_ten_pow_lt hlt hl
    have hb := le_of_onGrid? hc
    rw [shortest, if_neg hm, hs, ofUnits]
    simp only
    omega

end AccessRules.Decimal
