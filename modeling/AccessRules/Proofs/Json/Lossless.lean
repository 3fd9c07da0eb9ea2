import AccessRules.Proofs.Double.Nearest
import AccessRules.Proofs.Equality

/-! A double is written as an integer or as itself, and either way it is read back as the same
number. -/
namespace AccessRules

namespace Double

section Whole

variable {x : Finite}

theorem Finite.abs_value_of_integral (hx : x.magnitude.Integral) :
    |x.value| = x.magnitude.floor := by
  rw [value_of_integral hx, ← Int.cast_abs]
  split
  · rw [abs_neg, Nat.abs_cast, Int.cast_natCast]
  · rw [Nat.abs_cast, Int.cast_natCast]

/-- The doubles that are written as integers, by their value. -/
theorem Finite.integral_and_floor_le_iff (x : Finite) :
    x.magnitude.Integral ∧ x.magnitude.floor ≤ 9223372036854775808 ↔
      (∃ k : ℤ, x.value = k) ∧ |x.value| ≤ 2 ^ 63 := by
  rw [exists_value_eq_intCast_iff]
  apply and_congr_right
  intro hx
  rw [abs_value_of_integral hx]
  norm_cast

end Whole

section Rounding

theorem Finite.roundsTo_value (x : Finite) : RoundsTo x.value x := by
  constructor
  · intro y _
    rw [sub_self, abs_zero]
    exact abs_nonneg _
  · intro y _ hne he
    rw [sub_self, abs_zero, eq_comm, abs_eq_zero, sub_eq_zero] at he
    exact (hne he).elim

theorem of_round_eq {negative : Bool} {num den : ℕ} {x : Finite}
    (h : round negative num den = .finite x) :
    x.negative = negative ∧ nearest num den = x.magnitude.quanta := by
  unfold round at h
  split at h
  next m hm =>
    obtain rfl := Double.finite.inj h
    unfold Magnitude.round? at hm
    split at hm
    next => exact ⟨rfl, congrArg Magnitude.quanta (Option.some.inj hm)⟩
    next => cases hm
  next => cases h

/-- The double of an integer is the nearest one. -/
theorem roundsTo_ofInt {k : ℤ} {x : Finite} (h : ofInt k = .finite x) : RoundsTo k x := by
  obtain ⟨hneg, hnearest⟩ := of_round_eq h
  have habs : |(k : ℚ)| * quantaPerOne = (k.natAbs * quantaPerOne : ℕ) / (1 : ℕ) := by
    rw [Nat.cast_one, div_one, Nat.cast_mul, Nat.cast_natAbs, Int.cast_abs]
  have hsign : 0 ≤ x.value * k := by
    have hsize : (0 : ℚ) ≤ x.magnitude.quanta / quantaPerOne :=
      div_nonneg (Nat.cast_nonneg _) quantaPerOne_cast_pos.le
    rw [Finite.value, hneg]
    rcases Int.lt_or_le k 0 with hk | hk
    · rw [decide_eq_true hk, if_pos rfl, neg_one_mul, neg_mul, neg_nonneg]
      exact mul_nonpos_of_nonneg_of_nonpos hsize (Int.cast_nonpos.mpr hk.le)
    · rw [decide_eq_false hk.not_gt, if_neg Bool.false_ne_true, one_mul]
      exact mul_nonneg hsize (Int.cast_nonneg hk)
  exact (roundsTo_iff Nat.one_pos habs hsign).mpr hnearest

end Rounding

end Double

namespace Json.Number

def value : Number → ℚ
  | .integer n _ => n
  | .double x => x.value

theorem roundsTo_toDouble (n : Number) :
    ∃ x, n.toDouble = .finite x ∧ Double.RoundsTo n.value x := by
  cases n with
  | integer k range =>
    obtain ⟨x, hx⟩ := exists_toDouble_eq (.integer k range)
    exact ⟨x, hx, Double.roundsTo_ofInt hx⟩
  | double x => exact ⟨x, rfl, x.roundsTo_value⟩

section OfFinite

variable {x : Double.Finite}

/-- The integer that is written is the number itself, but for `2 ^ 63`, which is above all of them. -/
theorem exists_ofFinite_eq_integer
    (hx : x.magnitude.Integral ∧ x.magnitude.floor ≤ 9223372036854775808) :
    ∃ k range, ofFinite x = .integer k range ∧ (k : ℚ) = min x.value (2 ^ 63 - 1) := by
  have hlimit : ((9223372036854775807 : ℤ) : ℚ) = 2 ^ 63 - 1 := by norm_num
  rw [ofFinite, dif_pos hx, Double.Finite.value_of_integral hx.1, ← hlimit, ← Int.cast_min]
  split
  next =>
    have hmin : min (-(x.magnitude.floor : ℤ)) 9223372036854775807 = -x.magnitude.floor := by omega
    rw [hmin]
    exact ⟨_, by omega, rfl, rfl⟩
  next => exact ⟨_, by omega, rfl, rfl⟩

theorem ofFinite_eq_double
    (hx : ¬ (x.magnitude.Integral ∧ x.magnitude.floor ≤ 9223372036854775808)) :
    ofFinite x = .double x := by
  rw [ofFinite, dif_neg hx]

theorem ofFinite_eq_ofFinite_iff (x y : Double.Finite) :
    ofFinite x = ofFinite y ↔ (x == y) = true := by
  rw [Double.Finite.beq_iff]
  constructor
  · intro h
    have hd := congrArg toDouble h
    rw [toDouble_ofFinite, toDouble_ofFinite] at hd
    exact Double.finite.inj hd
  · intro h
    have hx := Json.ofDouble_settled (.finite x)
    have hy := Json.ofDouble_settled (.finite y)
    rw [Double.settled, h] at hx
    exact Json.number.inj (hx.symm.trans hy)

end OfFinite

end Json.Number

/-- Every finite double is written as a number that is read as the same double and is then written
alike: the whole ones of size up to `2 ^ 63` as integers, of which `2 ^ 63` is taken one lower, and the
others as themselves. Reading takes the double nearest to the number. Doubles are written alike
exactly if they are the same number, and what is not finite is written as null. -/
theorem Json.ofDouble_lossless :
    (∀ x : Double.Finite, ∃ n : Json.Number, Json.ofDouble (.finite x) = .number n ∧
      (n.toDouble == .finite x) = true ∧ Json.ofDouble n.toDouble = .number n ∧
      ((∃ k range, n = .integer k range) ↔ (∃ k : ℤ, x.value = k) ∧ |x.value| ≤ 2 ^ 63) ∧
      ((∃ k range, n = .integer k range ∧ (k : ℚ) = min x.value (2 ^ 63 - 1)) ∨ n = .double x)) ∧
    (∀ n : Json.Number, ∃ x, n.toDouble = .finite x ∧ Double.RoundsTo n.value x) ∧
    (∀ x y : Double.Finite,
      Json.ofDouble (.finite x) = Json.ofDouble (.finite y) ↔ (x == y) = true) ∧
    ∀ x : Double, Json.ofDouble x = .null ↔ ¬ x.IsFinite := by
  refine ⟨?_, Number.roundsTo_toDouble, ?_, ?_⟩
  · intro x
    have hread := Number.toDouble_ofFinite x
    refine ⟨.ofFinite x, rfl, ?_, ?_, ?_⟩
    · rw [hread]
      exact Double.settled_beq (x := .finite x) trivial
    · rw [hread]
      exact Json.ofDouble_settled (.finite x)
    · rw [← x.integral_and_floor_le_iff]
      by_cases hx : x.magnitude.Integral ∧ x.magnitude.floor ≤ 9223372036854775808
      · obtain ⟨k, range, hk, hvalue⟩ := Number.exists_ofFinite_eq_integer hx
        exact ⟨iff_of_true ⟨k, range, hk⟩ hx, Or.inl ⟨k, range, hk, hvalue⟩⟩
      · have hd := Number.ofFinite_eq_double hx
        refine ⟨iff_of_false ?_ hx, Or.inr hd⟩
        rintro ⟨k, range, hk⟩
        rw [hd] at hk
        cases hk
  · intro x y
    rw [← Number.ofFinite_eq_ofFinite_iff, Json.ofDouble, Json.ofDouble, Json.number.injEq]
  · intro x
    cases x with
    | finite x => exact iff_of_false (by simp [Json.ofDouble]) (fun h => h trivial)
    | _ => exact iff_of_true rfl id

end AccessRules
