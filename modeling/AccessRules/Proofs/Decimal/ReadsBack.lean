import AccessRules.Proofs.Decimal.Plain
import AccessRules.Proofs.Double.Exact

/-! The shortest decimal of a magnitude rounds to it, so its text determines the magnitude. -/
namespace AccessRules.Decimal

variable {tie : Tie} {q : Nat}

/-- The decimal counted in units of `10 ^ (-1074)`, if its exponent is not below these. -/
def units (d : Decimal) : Nat := d.digits * Nat.pow 10 (d.exponent + 1074).toNat

/-- The decimal is a number of units and rounds to `q` quanta. -/
def RoundsTo (q : Nat) (d : Decimal) : Prop :=
  -1074 ≤ d.exponent ∧ Double.nearest d.units unitsPerQuantum = q

theorem unitsPerQuantum_pos : 0 < unitsPerQuantum := by
  unfold unitsPerQuantum
  apply Nat.pow_pos
  decide

theorem readsBack_of_onGrid? {p c : Nat} (h : onGrid? tie q p = some c) : ReadsBack q p c := by
  simp only [onGrid?] at h
  split at h
  next hb =>
    split at h
    next ha =>
      obtain rfl := Option.some.inj h
      exact ha.1
    next =>
      obtain rfl := Option.some.inj h
      exact hb
  next =>
    split at h
    next ha =>
      obtain rfl := Option.some.inj h
      exact ha
    next => cases h

/-- The finest grid holds every magnitude. -/
theorem readsBack_finest (hq : Double.Aligned q) : ReadsBack q 0 (q * unitsPerQuantum) := by
  have hp : q * unitsPerQuantum * Nat.pow 10 0 = q * unitsPerQuantum := Nat.mul_one _
  rw [ReadsBack, hp]
  exact Double.nearest_mul_of_aligned hq unitsPerQuantum_pos

theorem roundsTo_ofUnits {p c : Nat} (h : ReadsBack q p c) : RoundsTo q (ofUnits c p) := by
  have hp : ((p : Int) - 1074 + 1074).toNat = p := by omega
  constructor
  · simp only [ofUnits]
    omega
  · rw [ofUnits, units, hp]
    exact h

theorem roundsTo_shortestFrom (hq : Double.Aligned q) (p : Nat) :
    RoundsTo q (shortestFrom tie q p) := by
  unfold shortestFrom
  cases hs : (List.range' 1 p).reverse.findSome? fun k => (onGrid? tie q k).map (ofUnits · k) with
  | none => exact roundsTo_ofUnits (readsBack_finest hq)
  | some d =>
    obtain ⟨k, -, hk⟩ := List.exists_of_findSome?_eq_some hs
    obtain ⟨c, hc, rfl⟩ := Option.map_eq_some_iff.mp hk
    exact roundsTo_ofUnits (readsBack_of_onGrid? hc)

theorem roundsTo_shortest (tie : Tie) (m : Magnitude) : RoundsTo m.quanta (shortest tie m) := by
  unfold shortest
  split
  next hz =>
    have hu : (⟨0, 0⟩ : Decimal).units = m.quanta * unitsPerQuantum := by
      rw [hz, Nat.zero_mul, units, Nat.zero_mul]
    constructor
    · simp only
      omega
    · rw [hu]
      exact Double.nearest_mul_of_aligned m.aligned unitsPerQuantum_pos
  next => exact roundsTo_shortestFrom m.aligned _

/-- The units are found from what the text shows: the digits, and the number of places. -/
theorem units_eq {d : Decimal} (hd : -1074 ≤ d.exponent) :
    d.units = d.digits * Nat.pow 10 d.exponent.toNat * Nat.pow 10 (1074 - d.places) := by
  have he : (d.exponent + 1074).toNat = d.exponent.toNat + (1074 - d.places) := by
    unfold places
    omega
  rw [units, he, Nat.mul_assoc]
  exact congrArg (d.digits * ·) (Nat.pow_add ..)

theorem eq_of_plain_shortest_eq {m n : Magnitude}
    (h : (shortest tie m).plain = (shortest tie n).plain) : m.quanta = n.quanta := by
  obtain ⟨hm, hrm⟩ := roundsTo_shortest tie m
  obtain ⟨hn, hrn⟩ := roundsTo_shortest tie n
  obtain ⟨hp, hx⟩ := eq_of_plain_eq h
  rw [← hrm, ← hrn, units_eq hm, units_eq hn, hp, hx]

end AccessRules.Decimal
