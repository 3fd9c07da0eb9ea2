import AccessRules.Json.Basic

/-! Exactness of rounding on the grid of the doubles, and the double that a written number reads
back as. -/
namespace AccessRules

namespace Double

theorem roundHalfEven_mul (k : Nat) {den : Nat} (hd : 0 < den) :
    roundHalfEven (k * den) den = k := by
  unfold roundHalfEven
  rw [Nat.mul_mod_left, Nat.mul_div_cancel k hd, if_pos (by omega)]

/-- Rounding fixes a magnitude on the grid, on whatever scale it is given. -/
theorem nearest_mul_of_aligned {q den : Nat} (hq : Aligned q) (hd : 0 < den) :
    nearest (q * den) den = q := by
  obtain ⟨k, hk⟩ := Nat.dvd_of_mod_eq_zero hq
  have hs : q * den = k * (den * ulp q) := by
    calc
      q * den = ulp q * k * den := by rw [← hk]
      _ = k * (den * ulp q) := by ac_rfl
  unfold nearest
  rw [Nat.mul_div_cancel q hd, hs, roundHalfEven_mul k (Nat.mul_pos hd (ulp_pos q)),
    Nat.mul_comm k, ← hk]

theorem round?_of_nearest {num den : Nat} {m : Magnitude} (h : nearest num den = m.quanta) :
    Magnitude.round? num den = some m := by
  have hb : nearest num den < overflowQuanta := by
    rw [h]
    exact m.bounded
  unfold Magnitude.round?
  split
  next hb' =>
    obtain ⟨q, ha, hq⟩ := m
    simp only at h
    simp only [h]
  next hb' => exact (hb' hb).elim

theorem round_of_nearest {num den : Nat} {m : Magnitude} (h : nearest num den = m.quanta)
    (negative : Bool) : round negative num den = .finite ⟨negative, m⟩ := by
  unfold round
  simp only [round?_of_nearest h]

theorem round_quanta (negative : Bool) (m : Magnitude) :
    round negative m.quanta 1 = .finite ⟨negative, m⟩ := by
  apply round_of_nearest
  simpa using nearest_mul_of_aligned m.aligned Nat.one_pos

/-- The integer one below `2 ^ 63` is nearest to `2 ^ 63`. -/
theorem nearest_of_saturated :
    nearest (9223372036854775807 * quantaPerOne) 1 = 9223372036854775808 * quantaPerOne := by
  decide +kernel

end Double

theorem quantaPerOne_pos : 0 < quantaPerOne := by
  unfold quantaPerOne
  apply Nat.two_pow_pos

namespace Magnitude

theorem ext_quanta {m n : Magnitude} (h : m.quanta = n.quanta) : m = n := by
  obtain ⟨q, _, _⟩ := m
  obtain ⟨r, _, _⟩ := n
  simp only at h
  simp only [h]

theorem quanta_of_integral {m : Magnitude} (hm : m.Integral) :
    m.floor * quantaPerOne = m.quanta :=
  Nat.div_mul_cancel (Nat.dvd_of_mod_eq_zero hm)

theorem integral_of_quanta_eq_zero {m : Magnitude} (hm : m.quanta = 0) : m.Integral := by
  unfold Integral
  rw [hm, Nat.zero_mod]

theorem floor_eq_zero_iff {m : Magnitude} (hm : m.Integral) : m.floor = 0 ↔ m.quanta = 0 := by
  have hp : quantaPerOne ≠ 0 := Nat.ne_of_gt quantaPerOne_pos
  rw [← quanta_of_integral hm, Nat.mul_eq_zero]
  exact ⟨Or.inl, fun h => h.resolve_right hp⟩

end Magnitude

namespace Double

/-- The same number; a zero is positive. -/
def Finite.settled (x : Finite) : Finite := ⟨x.negative && !decide x.IsZero, x.magnitude⟩

def settled : Double → Double
  | .finite x => .finite x.settled
  | x => x

theorem Finite.settled_beq (x : Finite) : (x.settled == x) = true := by
  change (_ == _ && (_ == _ || decide _)) = true
  by_cases hz : x.magnitude.quanta = 0 <;> simp [settled, IsZero, hz]

@[simp] theorem settled_settled (x : Double) : x.settled.settled = x.settled := by
  cases x with
  | nan => rfl
  | infinite s => rfl
  | finite x =>
    by_cases hz : x.magnitude.quanta = 0 <;> simp [settled, Finite.settled, Finite.IsZero, hz]

@[simp] theorem isFinite_settled (x : Double) : x.settled.IsFinite ↔ x.IsFinite := by
  cases x <;> rfl

theorem settled_beq {x : Double} (hx : x.IsFinite) : (x.settled == x) = true := by
  cases x with
  | nan => exact hx.elim
  | infinite s => exact hx.elim
  | finite x => exact x.settled_beq

end Double

namespace Json.Number

/-- A whole double is its whole part with its sign. -/
theorem ofInt_floor {x : Double.Finite} (hx : x.magnitude.Integral) :
    Double.ofInt (if x.negative then -(x.magnitude.floor : Int) else x.magnitude.floor) =
      .finite x.settled := by
  have hz := Magnitude.floor_eq_zero_iff hx
  have hs : decide ((if x.negative then -(x.magnitude.floor : Int) else x.magnitude.floor) < 0) =
      x.settled.negative := by
    cases hneg : x.negative
    · simp [Double.Finite.settled, hneg]
    · simp [Double.Finite.settled, Double.Finite.IsZero, hneg, ← hz, Nat.pos_iff_ne_zero]
  have ha : (if x.negative then -(x.magnitude.floor : Int) else x.magnitude.floor).natAbs =
      x.magnitude.floor := by
    split <;> omega
  rw [Double.ofInt, ha, hs, Magnitude.quanta_of_integral hx, Double.round_quanta]
  rfl

/-- The double at `2 ^ 63` is written one lower, and reads back. -/
theorem ofInt_saturated {x : Double.Finite} (hx : x.magnitude.Integral)
    (hf : x.magnitude.floor = 9223372036854775808) (hn : x.negative = false) :
    Double.ofInt 9223372036854775807 = .finite x.settled := by
  have hr : Double.nearest (9223372036854775807 * quantaPerOne) 1 = x.magnitude.quanta := by
    rw [Double.nearest_of_saturated, ← hf, Magnitude.quanta_of_integral hx]
  have hs : x.settled = ⟨false, x.magnitude⟩ := by simp [Double.Finite.settled, hn]
  have ha : (9223372036854775807 : Int).natAbs = 9223372036854775807 := rfl
  have hp : decide ((9223372036854775807 : Int) < 0) = false := rfl
  rw [hs, Double.ofInt, ha, hp]
  exact Double.round_of_nearest hr false

theorem toDouble_ofFinite (x : Double.Finite) : (ofFinite x).toDouble = .finite x.settled := by
  unfold ofFinite
  split
  next h =>
    obtain ⟨hi, hf⟩ := h
    have hw := ofInt_floor hi
    split
    next hn => simpa only [toDouble, hn, if_true] using hw
    next hn =>
      rw [if_neg hn] at hw
      by_cases hs : x.magnitude.floor = 9223372036854775808
      · have hm : min (x.magnitude.floor : Int) 9223372036854775807 = 9223372036854775807 := by
          omega
        simpa only [toDouble, hm] using ofInt_saturated hi hs (by simpa using hn)
      · have hm : min (x.magnitude.floor : Int) 9223372036854775807 = x.magnitude.floor := by omega
        simpa only [toDouble, hm] using hw
  next h =>
    have hz : ¬ x.IsZero := by
      intro hz
      have hi := Magnitude.integral_of_quanta_eq_zero hz
      have hf := (Magnitude.floor_eq_zero_iff hi).mpr hz
      exact h ⟨hi, by omega⟩
    simp [toDouble, Double.Finite.settled, hz]

end Json.Number

/-- The two zeros are written alike. -/
theorem Json.ofDouble_settled (x : Double) : Json.ofDouble x.settled = Json.ofDouble x := by
  cases x with
  | nan => rfl
  | infinite s => rfl
  | finite x =>
    obtain ⟨s, m⟩ := x
    by_cases hz : m.quanta = 0
    · have hi := Magnitude.integral_of_quanta_eq_zero hz
      have hf := (Magnitude.floor_eq_zero_iff hi).mpr hz
      have hzero (s : Bool) : Json.Number.ofFinite ⟨s, m⟩ = .integer 0 (by decide) := by
        rw [Json.Number.ofFinite, dif_pos ⟨hi, hf ▸ Nat.zero_le _⟩]
        simp only [hf]
        cases s <;> rfl
      exact congrArg Json.number ((hzero _).trans (hzero s).symm)
    · have hs : Double.Finite.settled ⟨s, m⟩ = ⟨s, m⟩ := by
        simp [Double.Finite.settled, Double.Finite.IsZero, hz]
      rw [Double.settled, hs]

namespace Double

theorem ulp_le (q : Nat) : ulp q ≤ q + 1 := by
  unfold ulp
  by_cases hq : q = 0
  · simp [hq]
  · rw [Nat.pow_eq]
    calc
      2 ^ (q.log2 - 52) ≤ 2 ^ q.log2 := Nat.pow_le_pow_right (by decide) (by omega)
      _ ≤ q := Nat.log2_self_le hq
      _ ≤ q + 1 := Nat.le_succ q

/-- Rounding at most doubles what it rounds, but for the least magnitudes. -/
theorem nearest_le (num den : Nat) : nearest num den ≤ 2 * (num / den) + 1 := by
  have hu := ulp_le (num / den)
  have hd := Nat.div_mul_le_self (num / den) (ulp (num / den))
  have hr := (roundHalfEven_bounds num (den * ulp (num / den))).2
  rw [← Nat.div_div_eq_div_mul] at hr
  calc
    nearest num den ≤ (num / den / ulp (num / den) + 1) * ulp (num / den) :=
      Nat.mul_le_mul_right _ hr
    _ = num / den / ulp (num / den) * ulp (num / den) + ulp (num / den) := Nat.succ_mul _ _
    _ ≤ 2 * (num / den) + 1 := by omega

theorem quanta_lt_overflow : 36893488147419103232 * quantaPerOne < overflowQuanta := by
  decide +kernel

theorem nearest_integer_lt {k : Nat} (hk : k < 18446744073709551616) :
    nearest (k * quantaPerOne) 1 < overflowQuanta := by
  have hp := quantaPerOne_pos
  have hm := nearest_le (k * quantaPerOne) 1
  have hb : (2 * k + 2) * quantaPerOne ≤ 36893488147419103232 * quantaPerOne :=
    Nat.mul_le_mul_right _ (by omega)
  have ho := quanta_lt_overflow
  rw [Nat.div_one, ← Nat.mul_assoc] at hm
  rw [Nat.add_mul] at hb
  omega

/-- No integer of 64 bits overflows. -/
theorem exists_ofInt_eq {n : Int} (hn : n.natAbs < 18446744073709551616) :
    ∃ x, ofInt n = .finite x := by
  have hb := nearest_integer_lt hn
  have ha := aligned_nearest (n.natAbs * quantaPerOne) 1
  -- With the magnitude under a name, nothing tries to compute it.
  generalize hq : nearest (n.natAbs * quantaPerOne) 1 = q at ha hb
  let m : Magnitude := ⟨q, ha, hb⟩
  have hm : nearest (n.natAbs * quantaPerOne) 1 = m.quanta := hq
  unfold ofInt
  rw [round_of_nearest hm]
  exact ⟨_, rfl⟩

end Double

theorem Json.Number.exists_toDouble_eq (n : Json.Number) : ∃ x, n.toDouble = .finite x := by
  cases n with
  | integer k hk =>
    have hb : k.natAbs < 18446744073709551616 := by omega
    simpa only [toDouble] using Double.exists_ofInt_eq hb
  | double x => exact ⟨x, rfl⟩

theorem Json.Number.isFinite_toDouble (n : Json.Number) : n.toDouble.IsFinite := by
  obtain ⟨x, hx⟩ := n.exists_toDouble_eq
  rw [hx]
  trivial

end AccessRules
