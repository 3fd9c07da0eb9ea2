import AccessRules.Json.Reader.Numeral
import AccessRules.Proofs.Decimal.Digits

/-! Scaling the digits of a decimal by its power of ten: no shortest decimal overflows on the way,
and the result is the nearest double wherever the digits and the power of ten are doubles. -/
namespace AccessRules

open Double (nearest)

namespace Magnitude

theorem exists_round? {num den : Nat} (h : nearest num den < overflowQuanta) :
    ∃ m, round? num den = some m ∧ m.quanta = nearest num den :=
  ⟨_, dif_pos h, rfl⟩

/-- What is divided by at least one does not grow, so it does not overflow. -/
theorem exists_div? (a : Magnitude) {b : Magnitude} (hb : quantaPerOne ≤ b.quanta) :
    ∃ m, a.div? b = some m := by
  have hpos : 0 < b.quanta := Nat.lt_of_lt_of_le quantaPerOne_pos hb
  have hle : nearest (a.quanta * quantaPerOne) b.quanta ≤ a.quanta :=
    Double.nearest_le_of_le_aligned a.aligned hpos (Nat.mul_le_mul_left _ hb)
  obtain ⟨m, hm, -⟩ := exists_round? (Nat.lt_of_le_of_lt hle a.bounded)
  exact ⟨m, hm⟩

section Largest

def largest : Magnitude :=
  ⟨9007199254740991 * Nat.pow 2 2045, by decide +kernel, by decide +kernel⟩

/-- Midway between the two largest magnitudes. -/
def belowLargest : Nat := 18014398509481981 * Nat.pow 2 970

/-- Midway between the largest magnitude and the next number of 53 bits. -/
def aboveLargest : Nat := 18014398509481983 * Nat.pow 2 970

theorem nearest_around_largest : nearest (belowLargest * quantaPerOne + 1) 1 = largest.quanta ∧
    nearest (aboveLargest * quantaPerOne - 1) 1 = largest.quanta ∧
    nearest (aboveLargest * quantaPerOne) 1 = overflowQuanta := by
  decide +kernel

theorem nearest_lt_overflow_iff {v : Nat} :
    nearest v 1 < overflowQuanta ↔ v < aboveLargest * quantaPerOne := by
  obtain ⟨-, habove, hover⟩ := nearest_around_largest
  constructor
  · intro h
    rw [← Nat.not_le]
    intro hle
    have hm := Double.nearest_mono Nat.one_pos hle
    omega
  · intro h
    have hm := Double.nearest_mono Nat.one_pos (Nat.le_sub_one_of_lt h)
    rw [habove] at hm
    exact Nat.lt_of_le_of_lt hm largest.bounded

/-- Only the largest double is nearest to what lies above `belowLargest` without an overflow. -/
theorem nearest_eq_largest {v : Nat} (hv : belowLargest * quantaPerOne < v)
    (ho : nearest v 1 < overflowQuanta) : nearest v 1 = largest.quanta := by
  obtain ⟨hbelow, habove, -⟩ := nearest_around_largest
  have hlow := Double.nearest_mono Nat.one_pos hv
  rw [Nat.succ_eq_add_one, hbelow] at hlow
  have hhigh :=
    Double.nearest_mono Nat.one_pos (Nat.le_sub_one_of_lt (nearest_lt_overflow_iff.mp ho))
  rw [habove] at hhigh
  omega

end Largest

end Magnitude

namespace Json.Numeral

open Magnitude (aboveLargest)

theorem exists_quantaPerOne_eq : ∃ j, quantaPerOne = Nat.pow 2 j := by
  unfold quantaPerOne
  generalize 1074 = j
  exact ⟨j, rfl⟩

theorem aligned_quantaPerOne : Double.Aligned quantaPerOne := by
  obtain ⟨j, hone⟩ := exists_quantaPerOne_eq
  rw [hone, ← Nat.one_mul (Nat.pow 2 j)]
  exact Double.aligned_mul_two_pow 1 j (by decide)

/-- Up to 22 a power of ten is a double, since its odd part fits 53 bits. -/
theorem aligned_ten_pow {k : Nat} (hk : k ≤ 22) :
    Double.Aligned (Nat.pow 10 k * quantaPerOne) := by
  obtain ⟨j, hone⟩ := exists_quantaPerOne_eq
  have hodd : Nat.pow 5 k ≤ Nat.pow 2 53 :=
    Nat.le_trans (Nat.pow_le_pow_right (by decide) hk) (by decide)
  have hsplit : Nat.pow 10 k * Nat.pow 2 j = Nat.pow 5 k * Nat.pow 2 (k + j) := by
    simp only [Nat.pow_eq]
    rw [Nat.pow_add, ← Nat.mul_assoc, ← Nat.mul_pow]
  rw [hone, hsplit]
  exact Double.aligned_mul_two_pow _ _ hodd

/-- The largest power of ten is a double's, and the next one overflows. -/
theorem exists_maxPower_bounds : ∃ k, k = maxPower ∧
    Nat.pow 10 k < aboveLargest ∧ aboveLargest < Nat.pow 10 (k + 1) :=
  ⟨308, by decide +kernel⟩

/-- Every power of ten up to the largest is near some double of at least one. -/
theorem exists_tenPower? {k : Nat} (hk : k ≤ maxPower) :
    ∃ m, tenPower? k = some m ∧ m.quanta = nearest (Nat.pow 10 k * quantaPerOne) 1 ∧
      quantaPerOne ≤ m.quanta := by
  obtain ⟨top, htop, hlt, -⟩ := exists_maxPower_bounds
  have hpow : Nat.pow 10 k ≤ Nat.pow 10 top := by
    rw [Nat.pow_eq, Nat.pow_eq]
    exact Nat.pow_le_pow_right (by decide) (htop ▸ hk)
  have hbound : Nat.pow 10 k * quantaPerOne < aboveLargest * quantaPerOne :=
    Nat.mul_lt_mul_of_pos_right (Nat.lt_of_le_of_lt hpow hlt) quantaPerOne_pos
  obtain ⟨m, hm, hq⟩ := Magnitude.exists_round? (Magnitude.nearest_lt_overflow_iff.mpr hbound)
  have hpos : 0 < Nat.pow 10 k := Nat.pow_pos (by decide)
  refine ⟨m, hm, hq, ?_⟩
  rw [hq]
  apply Double.le_nearest_of_aligned_le aligned_quantaPerOne Nat.one_pos
  rw [Nat.mul_one]
  exact Nat.le_mul_of_pos_left quantaPerOne hpos

theorem exists_lower? (n : Nat) (a : Magnitude) : ∃ m, lower? n a = some m := by
  induction n generalizing a with
  | zero => exact ⟨a, rfl⟩
  | succ n ih =>
    obtain ⟨p, hp, -, hone⟩ := exists_tenPower? (Nat.le_refl maxPower)
    obtain ⟨b, hb⟩ := a.exists_div? hone
    rw [lower?]
    split
    next => exact ⟨a, rfl⟩
    next =>
      rw [hp, Option.bind_eq_bind, Option.bind_some, hb, Option.bind_some]
      exact ih b

theorem exists_scale?_of_neg (a : Magnitude) {e : Int} (he : e < 0) :
    ∃ m, scale? a e = some m := by
  have hk : e.natAbs - (e.natAbs - 1) / maxPower * maxPower ≤ maxPower := by
    unfold maxPower
    omega
  obtain ⟨p, hp, -, hone⟩ := exists_tenPower? hk
  obtain ⟨b, hb⟩ := exists_lower? ((e.natAbs - 1) / maxPower) a
  obtain ⟨m, hm⟩ := b.exists_div? hone
  refine ⟨m, ?_⟩
  rw [scale?, if_pos he]
  dsimp only
  rw [hb, Option.bind_eq_bind, Option.bind_some, hp, Option.bind_some, hm]

theorem tenPower?_of_le {k : Nat} (hk : k ≤ 22) :
    ∃ m, tenPower? k = some m ∧ m.quanta = Nat.pow 10 k * quantaPerOne := by
  obtain ⟨m, hm, hq, -⟩ := exists_tenPower? (k := k) (by unfold maxPower; omega)
  have ha := Double.nearest_mul_of_aligned (aligned_ten_pow hk) Nat.one_pos
  rw [Nat.mul_one] at ha
  exact ⟨m, hm, hq.trans ha⟩

end Json.Numeral

namespace Decimal

open Json.Numeral
open Magnitude (largest belowLargest aboveLargest)

variable {d : Decimal} {tie : Tie}

/-- The nearest double to the digits, scaled by the power of ten as a numeral is. -/
def scaled? (d : Decimal) : Option Magnitude := Magnitude.ofNat? d.digits >>= (scale? · d.exponent)

section Value

/-- Units and quanta split ten into its factors. Nothing computes the power of an exponent that is
only known to be equal to the number. -/
theorem exists_ten_pow_eq : ∃ k, k = 1074 ∧ Nat.pow 10 k = quantaPerOne * unitsPerQuantum := by
  unfold quantaPerOne unitsPerQuantum
  generalize 1074 = k
  exact ⟨k, rfl, Nat.mul_pow 2 5 k⟩

theorem ten_pow_mul {a b c p : Nat} (h : a + b = c) (hp : Nat.pow 10 b = p) :
    Nat.pow 10 a * p = Nat.pow 10 c := by
  rw [← h, ← hp]
  exact (Nat.pow_add 10 a b).symm

/-- The digits with their power of ten, in quanta. -/
theorem nearest_units_of_nonneg (he : 0 ≤ d.exponent) :
    nearest d.units unitsPerQuantum =
      nearest (d.digits * Nat.pow 10 d.exponent.toNat * quantaPerOne) 1 := by
  obtain ⟨k, hk, hten⟩ := exists_ten_pow_eq
  have hsum : d.exponent.toNat + k = (d.exponent + 1074).toNat := by omega
  have hu : d.units =
      d.digits * Nat.pow 10 d.exponent.toNat * quantaPerOne * unitsPerQuantum := by
    rw [units, ← ten_pow_mul hsum hten, ← Nat.mul_assoc, ← Nat.mul_assoc]
  have h := Double.nearest_mul_right (d.digits * Nat.pow 10 d.exponent.toNat * quantaPerOne) 1
    unitsPerQuantum_pos
  rwa [Nat.one_mul, ← hu] at h

theorem nearest_units_of_neg (he : d.exponent < 0) (hlow : -1074 ≤ d.exponent) :
    nearest d.units unitsPerQuantum =
      nearest (d.digits * quantaPerOne) (Nat.pow 10 d.exponent.natAbs) := by
  have hpow : 0 < Nat.pow 10 d.exponent.natAbs := Nat.pow_pos (by decide)
  obtain ⟨k, hk, hten⟩ := exists_ten_pow_eq
  have hsum : (d.exponent + 1074).toNat + d.exponent.natAbs = k := by omega
  have hu : d.units * Nat.pow 10 d.exponent.natAbs = d.digits * quantaPerOne * unitsPerQuantum := by
    rw [units, Nat.mul_assoc, ten_pow_mul hsum rfl, hten, Nat.mul_assoc]
  rw [← Double.nearest_mul_right _ _ hpow, hu, Nat.mul_comm unitsPerQuantum,
    Double.nearest_mul_right _ _ unitsPerQuantum_pos]

end Value

section Exact

theorem aligned_integer {n : Nat} (hn : n ≤ 9007199254740992) :
    Double.Aligned (n * quantaPerOne) := by
  obtain ⟨j, hone⟩ := exists_quantaPerOne_eq
  rw [hone]
  exact Double.aligned_mul_two_pow n j hn

/-- Digits of at most 53 bits are a double. -/
theorem ofNat?_of_le {n : Nat} (hn : n ≤ 9007199254740992) :
    ∃ m, Magnitude.ofNat? n = some m ∧ m.quanta = n * quantaPerOne := by
  obtain ⟨m, hm, hq⟩ :=
    Magnitude.exists_round? (Double.nearest_integer_lt (k := n) (by omega))
  have hn := Double.nearest_mul_of_aligned (aligned_integer hn) Nat.one_pos
  rw [Nat.mul_one] at hn
  exact ⟨m, hm, hq.trans hn⟩

/-- Where both the digits and the power of ten are doubles, there is only one rounding. -/
theorem scaled?_of_roundsTo {m : Magnitude} (hd : d.RoundsTo m.quanta)
    (hdigits : d.digits ≤ 9007199254740992) (hexp : d.exponent.natAbs ≤ 22) :
    d.scaled? = some m := by
  obtain ⟨a, ha, hqa⟩ := ofNat?_of_le hdigits
  obtain ⟨p, hp, hqp⟩ := tenPower?_of_le hexp
  obtain ⟨hlow, hround⟩ := hd
  rw [scaled?, ha, Option.bind_eq_bind, Option.bind_some]
  by_cases he : d.exponent < 0
  · have hrounds : (d.exponent.natAbs - 1) / maxPower = 0 := by
      unfold maxPower
      omega
    have hdiv : a.div? p = some m := by
      apply Double.round?_of_nearest
      rw [hqa, hqp, Double.nearest_mul_right _ _ quantaPerOne_pos, ← nearest_units_of_neg he hlow,
        hround]
    rw [scale?, if_pos he]
    dsimp only
    rw [hrounds, lower?, Option.bind_eq_bind, Option.bind_some, Nat.zero_mul, Nat.sub_zero, hp,
      Option.bind_some, hdiv]
  · have hmul : a.mul? p = some m := by
      have hprod : a.quanta * p.quanta =
          d.digits * Nat.pow 10 d.exponent.toNat * quantaPerOne * quantaPerOne := by
        rw [hqa, hqp, Nat.mul_mul_mul_comm, ← Nat.mul_assoc,
          show d.exponent.natAbs = d.exponent.toNat by omega]
      have hone := Double.nearest_mul_right
        (d.digits * Nat.pow 10 d.exponent.toNat * quantaPerOne) 1 quantaPerOne_pos
      rw [Nat.one_mul, ← hprod, ← nearest_units_of_nonneg (by omega), hround] at hone
      exact Double.round?_of_nearest hone
    rw [scale?, if_neg he, if_pos (by unfold maxPower; omega), hp, Option.bind_eq_bind,
      Option.bind_some, hmul]

end Exact

section Overflow

/-- The shortest decimal of the largest magnitude is itself near enough not to overflow. -/
theorem isSome_scaled?_largest :
    (shortest .even largest).scaled?.isSome = true := by
  decide +kernel

/-- The digits at `10 ^ (288 + k)`: all up to 19 of them at the first power of ten, which is far
from an overflow, and then those whose product stays below `belowLargest`. -/
def digitsBound : Nat → Nat
  | 0 => 1000000000000000000
  | k + 1 => belowLargest / Nat.pow 10 (289 + k)

/-- Both factors and the product are rounded, and still there is no overflow. -/
theorem nearest_product_lt : ∀ k ≤ 20,
    nearest (nearest (digitsBound k * quantaPerOne) 1 *
      nearest (Nat.pow 10 (288 + k) * quantaPerOne) 1) quantaPerOne < overflowQuanta := by
  decide +kernel

section Product

variable {n e : Nat}

theorem le_maxPower (hn : 0 < n) (h : n * Nat.pow 10 e < aboveLargest) : e ≤ maxPower := by
  obtain ⟨k, hk, -, hbound⟩ := exists_maxPower_bounds
  have hle : Nat.pow 10 e ≤ n * Nat.pow 10 e := Nat.le_mul_of_pos_left _ hn
  have hlt : 10 ^ e < 10 ^ (k + 1) := Nat.lt_of_le_of_lt hle (Nat.lt_trans h hbound)
  rw [Nat.pow_lt_pow_iff_right (by decide)] at hlt
  omega

theorem nearest_product_lt_of_le (hn : n ≤ 1000000000000000000)
    (h : n * Nat.pow 10 e ≤ belowLargest) (he : e ≤ maxPower) :
    nearest (nearest (n * quantaPerOne) 1 * nearest (Nat.pow 10 e * quantaPerOne) 1) quantaPerOne <
      overflowQuanta := by
  unfold maxPower at he
  -- Smaller powers of ten are covered by the check of the first one.
  have hdigits : n ≤ digitsBound (e - 288) := by
    by_cases hle : e ≤ 288
    · rwa [Nat.sub_eq_zero_of_le hle, digitsBound]
    · obtain ⟨k, rfl⟩ : ∃ k, e = 289 + k := Nat.exists_eq_add_of_le (by omega)
      rw [show 289 + k - 288 = k + 1 by omega, digitsBound]
      exact (Nat.le_div_iff_mul_le (Nat.pow_pos (by decide))).mpr h
  have hpow : Nat.pow 10 e ≤ Nat.pow 10 (288 + (e - 288)) := by
    simp only [Nat.pow_eq]
    exact Nat.pow_le_pow_right (by decide) (by omega)
  refine Nat.lt_of_le_of_lt ?_ (nearest_product_lt (e - 288) (by omega))
  apply Double.nearest_mono quantaPerOne_pos
  apply Nat.mul_le_mul
  · exact Double.nearest_mono Nat.one_pos (Nat.mul_le_mul_right _ hdigits)
  · exact Double.nearest_mono Nat.one_pos (Nat.mul_le_mul_right _ hpow)

end Product

theorem exists_scaled?_of_neg (hd : d.digits < wordBound) (he : d.exponent < 0) :
    ∃ m, d.scaled? = some m := by
  obtain ⟨a, ha, -⟩ := Magnitude.exists_round? (Double.nearest_integer_lt hd)
  obtain ⟨m, hm⟩ := exists_scale?_of_neg a he
  refine ⟨m, ?_⟩
  rw [scaled?, Magnitude.ofNat?, ha, Option.bind_eq_bind, Option.bind_some, hm]

theorem exists_scaled?_of_le (hd : d.digits ≤ 1000000000000000000) (he : 0 ≤ d.exponent)
    (h : d.digits * Nat.pow 10 d.exponent.toNat ≤ belowLargest)
    (hmax : d.exponent.toNat ≤ maxPower) : ∃ m, d.scaled? = some m := by
  obtain ⟨a, ha, hqa⟩ :=
    Magnitude.exists_round? (Double.nearest_integer_lt (k := d.digits) (by omega))
  obtain ⟨p, hp, hqp, -⟩ := exists_tenPower? hmax
  have hlt := nearest_product_lt_of_le hd h hmax
  rw [← hqa, ← hqp] at hlt
  obtain ⟨m, hm, -⟩ := Magnitude.exists_round? hlt
  refine ⟨m, ?_⟩
  have habs : d.exponent.natAbs = d.exponent.toNat := by omega
  rw [scaled?, Magnitude.ofNat?, ha, Option.bind_eq_bind, Option.bind_some, scale?,
    if_neg (by omega), if_pos (by omega), habs, hp, Option.bind_eq_bind, Option.bind_some,
    Magnitude.mul?, hm]

section Shortest

variable {m : Magnitude}

theorem nearest_shortest (he : 0 ≤ (shortest tie m).exponent) :
    nearest ((shortest tie m).digits * Nat.pow 10 (shortest tie m).exponent.toNat * quantaPerOne)
      1 = m.quanta := by
  rw [← nearest_units_of_nonneg he, (roundsTo_shortest tie m).2]

theorem exponent_shortest_le (tie : Tie) (m : Magnitude) : (shortest tie m).exponent ≤ 308 := by
  by_cases hz : m.quanta = 0
  · rw [shortest, if_pos hz]
    decide
  · rcases Int.lt_or_le (shortest tie m).exponent 0 with he | he
    · omega
    · have hlt := Magnitude.nearest_lt_overflow_iff.mp ((nearest_shortest he).symm ▸ m.bounded)
      have hmax := le_maxPower (digits_shortest tie hz).1 (Nat.lt_of_mul_lt_mul_right hlt)
      unfold maxPower at hmax
      omega

/-- No shortest decimal with a power of ten to multiply by overflows. -/
theorem exists_scaled?_shortest (hz : m.quanta ≠ 0) (he : 0 ≤ (shortest .even m).exponent) :
    ∃ n, (shortest .even m).scaled? = some n := by
  by_cases hm : m = largest
  · subst hm
    exact Option.isSome_iff_exists.mp isSome_scaled?_largest
  · have hn := nearest_shortest he
    have hle : (shortest .even m).digits * Nat.pow 10 (shortest .even m).exponent.toNat ≤
        belowLargest := by
      rw [← Nat.not_lt]
      intro hlt
      have hl := Magnitude.nearest_eq_largest (Nat.mul_lt_mul_of_pos_right hlt quantaPerOne_pos)
        (hn.symm ▸ m.bounded)
      exact hm (Magnitude.ext_quanta (hn.symm.trans hl))
    have hmax := exponent_shortest_le .even m
    exact exists_scaled?_of_le (digits_shortest .even hz).2 he hle (by unfold maxPower; omega)

end Shortest

end Overflow

end Decimal

end AccessRules
