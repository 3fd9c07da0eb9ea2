import AccessRules.Proofs.Decimal.Fewest
import AccessRules.Proofs.Json.Numeral
import AccessRules.Proofs.Rule.Number

/-! Numbers in rule text are plain decimals that round to the number, with as few digits as any
decimal that does. -/
namespace AccessRules

section Plain

namespace Json.Numeral

/-- The power of ten of the last digit. -/
def power (n : Numeral) : ℤ :=
  (match n.exponent with
    | some (negative, ds) =>
      if negative then -(Nat.ofDigitChars 10 ds 0 : ℤ) else Nat.ofDigitChars 10 ds 0
    | none => 0) - (n.fraction.getD []).length

/-- The exact number that a numeral denotes. -/
def rational (n : Numeral) : ℚ :=
  (if n.negative then -1 else 1) *
    (Nat.ofDigitChars 10 (n.whole ++ n.fraction.getD []) 0 * 10 ^ n.power)

/-- No exponent, and a fraction only if it does not end in zero. -/
structure Plain (n : Numeral) : Prop extends Legal n where
  positional : n.exponent = none
  trailing : ∀ ds ∈ n.fraction, ds.getLast? ≠ some '0'

end Json.Numeral

/-- At most the given number of digits are significant: what else there is are zeros at both ends. -/
def HasDigits (n : ℕ) (r : ℚ) : Prop := ∃ (d : ℕ) (e : ℤ), d < 10 ^ n ∧ |r| = d * 10 ^ e

end Plain

namespace Decimal

variable {d : Decimal}

def rational (d : Decimal) : ℚ := d.digits * 10 ^ d.exponent

theorem rational_nonneg (d : Decimal) : 0 ≤ d.rational :=
  mul_nonneg (Nat.cast_nonneg _) (zpow_nonneg (by norm_num) _)

theorem ten_zpow (e : ℤ) : (10 : ℚ) ^ e = 10 ^ e.toNat / 10 ^ (-e).toNat := by
  rw [eq_div_iff (by positivity), ← zpow_natCast, ← zpow_natCast, ← zpow_add₀ (by norm_num)]
  congr 1
  omega

theorem rational_eq_div (d : Decimal) :
    d.rational = (d.digits * Nat.pow 10 d.exponent.toNat : ℕ) / (Nat.pow 10 d.places : ℕ) := by
  rw [rational, ten_zpow, places, Nat.pow_eq, Nat.pow_eq]
  push_cast
  rw [mul_div_assoc]

theorem roundsTo_iff {r : ℚ} {x : Double.Finite} (hr : |r| = d.rational) (hs : 0 ≤ x.value * r) :
    Double.RoundsTo r x ↔
      Double.nearest (d.digits * Nat.pow 10 d.exponent.toNat * quantaPerOne) (Nat.pow 10 d.places) =
        x.magnitude.quanta := by
  have hpow : 0 < Nat.pow 10 d.places := Nat.pow_pos (by decide)
  apply Double.roundsTo_iff hpow _ hs
  rw [hr, rational_eq_div, div_mul_eq_mul_div, Nat.cast_mul _ quantaPerOne]

/-- The numeral of a decimal in positional notation. -/
def numeral (negative : Bool) (d : Decimal) : Json.Numeral :=
  ⟨negative, d.whole, if d.places = 0 then none else some d.fraction, none⟩

theorem chars_numeral (negative : Bool) (d : Decimal) :
    (d.numeral negative).chars = if negative then '-' :: d.plain else d.plain := by
  have hplain : d.whole ++ Json.Numeral.chars.fractionChars (d.numeral negative).fraction =
      d.plain := by
    unfold numeral plain
    split
    · exact List.append_nil _
    · rfl
  have hexponent : Json.Numeral.chars.exponentChars (d.numeral negative).exponent = [] := rfl
  rw [Json.Numeral.chars, hexponent, List.append_nil]
  change (if negative then ['-'] else []) ++ (d.whole ++ _) = _
  rw [hplain]
  cases negative <;> rfl

/-- The digits around the point are those of the decimal. -/
theorem ofDigitChars_whole_fraction (d : Decimal) :
    Nat.ofDigitChars 10 (d.whole ++ d.fraction) 0 = d.digits * Nat.pow 10 d.exponent.toNat := by
  rw [Nat.ofDigitChars_append, Nat.ofDigitChars_eq_ofDigitChars_zero, length_fraction,
    ofDigitChars_fraction, whole, Nat.ofDigitChars_ten_toDigits]
  by_cases hp : d.places = 0
  · rw [hp]
    simp [Nat.mod_one]
  · rw [toNat_exponent_of_places hp]
    simp only [Nat.pow_eq, Nat.pow_zero, Nat.mul_one]
    exact Nat.div_add_mod _ _

theorem rational_numeral (negative : Bool) (d : Decimal) :
    (d.numeral negative).rational = (if negative then -1 else 1) * d.rational := by
  have hfraction : (d.numeral negative).fraction.getD [] = d.fraction := by
    unfold numeral
    split
    next hp => rw [Option.getD_none, fraction, if_pos hp]
    next => rfl
  have hpower : (d.numeral negative).power = -d.places := by
    rw [Json.Numeral.power, hfraction, length_fraction]
    exact zero_sub _
  rw [Json.Numeral.rational, hfraction, hpower]
  change _ * ((Nat.ofDigitChars 10 (d.whole ++ d.fraction) 0 : ℚ) * _) = _
  rw [ofDigitChars_whole_fraction, rational_eq_div, zpow_neg, zpow_natCast, div_eq_mul_inv]
  simp only [Nat.pow_eq, Nat.cast_pow, Nat.cast_ofNat]
  rfl

theorem getLast?_fraction_ne (hd : d.digits % 10 ≠ 0) : d.fraction.getLast? ≠ some '0' := by
  intro h
  obtain ⟨ds, hds⟩ := List.getLast?_eq_some_iff.mp h
  have hpos : d.places ≠ 0 := by
    rw [← length_fraction, hds]
    simp
  have hval := ofDigitChars_fraction d
  rw [hds, Nat.ofDigitChars_append, Nat.ofDigitChars_cons, Nat.ofDigitChars_nil] at hval
  have hdvd : 10 ∣ Nat.pow 10 d.places := dvd_pow_self 10 hpos
  have hmod : d.digits % Nat.pow 10 d.places % 10 = 0 := by
    rw [← hval]
    simp
  rw [Nat.mod_mod_of_dvd _ hdvd] at hmod
  exact hd hmod

theorem plain_numeral (negative : Bool) (hd : d.places ≠ 0 → d.digits % 10 ≠ 0) :
    (d.numeral negative).Plain := by
  have hfraction : ∀ ds ∈ (d.numeral negative).fraction, d.places ≠ 0 ∧ ds = d.fraction := by
    intro ds hds
    unfold numeral at hds
    split at hds
    next => cases hds
    next hp => exact ⟨hp, (Option.some.inj hds).symm⟩
  refine ⟨⟨Json.Numeral.isDigits_toDigits _, Json.Numeral.ne_zero_cons_toDigits _, ?_, ?_⟩, rfl, ?_⟩
  · intro ds hds
    obtain ⟨hp, rfl⟩ := hfraction ds hds
    refine ⟨?_, fun c hc => isDigit_of_mem_fraction hc⟩
    rw [← List.length_pos_iff, length_fraction]
    omega
  · intro e he
    cases he
  · intro ds hds
    obtain ⟨hp, rfl⟩ := hfraction ds hds
    exact getLast?_fraction_ne (hd hp)

theorem hasDigits_rational (d : Decimal) (s : ℚ) (hs : |s| = 1) {n : ℕ} (hd : d.digits < 10 ^ n) :
    HasDigits n (s * d.rational) :=
  ⟨d.digits, d.exponent, hd, by rw [abs_mul, hs, one_mul, abs_of_nonneg d.rational_nonneg, rational]⟩

end Decimal

namespace Double.Finite

def ruleNumeral (x : Finite) : Json.Numeral :=
  (Decimal.shortest .above x.magnitude).numeral x.settled.negative

theorem rule_eq_ruleNumeral (x : Finite) :
    (Double.finite x).rule = .ok (String.ofList x.ruleNumeral.chars) := by
  rw [Double.rule_eq_ok_iff]
  refine ⟨trivial, ?_⟩
  rw [← display_settled, ← String.ofList_toList (s := x.settled.display), toList_display,
    ruleNumeral, Decimal.chars_numeral]
  rfl

theorem plain_ruleNumeral (x : Finite) : x.ruleNumeral.Plain := by
  apply Decimal.plain_numeral
  intro hp
  have hz : x.magnitude.quanta ≠ 0 := by
    intro hz
    rw [Decimal.shortest, if_pos hz] at hp
    exact hp rfl
  obtain ⟨l, c, hs, hc, -⟩ := Decimal.exists_shortest_eq .above hz
  rw [hs]
  exact hc.mod_ten_ne

section Rounding

variable {x : Finite} {r : ℚ}

theorem value_eq_sign_mul (x : Finite) :
    x.value = (if x.settled.negative then -1 else 1) * |x.value| := by
  have hneg := value_neg_iff x
  split
  next hs => rw [abs_of_neg (hneg.mpr hs), neg_one_mul, neg_neg]
  next hs => rw [abs_of_nonneg (not_lt.mp (mt hneg.mp hs)), one_mul]

theorem rational_ruleNumeral (x : Finite) :
    x.ruleNumeral.rational = (if x.settled.negative then -1 else 1) *
      (Decimal.shortest .above x.magnitude).rational :=
  Decimal.rational_numeral _ _

theorem value_mul_rational_nonneg (x : Finite) : 0 ≤ x.value * x.ruleNumeral.rational := by
  have hd := (Decimal.shortest .above x.magnitude).rational_nonneg
  rw [value_eq_sign_mul, rational_ruleNumeral, mul_mul_mul_comm, ← sq, ← sq_abs, abs_sign, one_pow,
    one_mul]
  exact mul_nonneg (abs_nonneg _) hd

theorem roundsTo_ruleNumeral (x : Finite) : RoundsTo x.ruleNumeral.rational x := by
  obtain ⟨hlow, hnearest⟩ := Decimal.roundsTo_shortest .above x.magnitude
  have habs : |x.ruleNumeral.rational| = (Decimal.shortest .above x.magnitude).rational := by
    rw [rational_ruleNumeral, abs_mul, abs_sign, one_mul, abs_of_nonneg (Decimal.rational_nonneg _)]
  rw [Decimal.roundsTo_iff habs (value_mul_rational_nonneg x), ← Decimal.nearest_units hlow,
    hnearest]

/-- Whatever number of digits suffices for some decimal suffices in rule text. -/
theorem hasDigits_ruleNumeral {n : ℕ} (hr : RoundsTo r x) (hn : HasDigits n r) :
    HasDigits n x.ruleNumeral.rational := by
  obtain ⟨digits, exponent, hdigits, habs⟩ := hn
  rw [rational_ruleNumeral]
  apply Decimal.hasDigits_rational _ _ (abs_sign _)
  by_cases hz : x.magnitude.quanta = 0
  · rw [Decimal.shortest, if_pos hz]
    exact Nat.pow_pos (by decide)
  · have hs := (hr.value_mul_pos (mt (value_eq_zero_iff x).mp hz)).le
    have habs' : |r| = Decimal.rational ⟨digits, exponent⟩ := habs
    exact Decimal.digits_shortest_lt .above hz ((Decimal.roundsTo_iff habs' hs).mp hr) hdigits

end Rounding

theorem value_eq_iff (x y : Finite) : x.value = y.value ↔ x.settled = y.settled := by
  have hone := quantaPerOne_cast_pos
  constructor
  · intro h
    have hn : x.settled.negative = y.settled.negative := by
      rw [Bool.eq_iff_iff, ← value_neg_iff, ← value_neg_iff, h]
    have hq : (x.magnitude.quanta : ℚ) / quantaPerOne = y.magnitude.quanta / quantaPerOne := by
      rw [← abs_value, ← abs_value, h]
    rw [div_left_inj' hone.ne'] at hq
    have hm : x.settled.magnitude = y.settled.magnitude :=
      Magnitude.ext_quanta (Nat.cast_injective hq)
    generalize x.settled = a at hn hm
    generalize y.settled = b at hn hm
    cases a
    cases b
    simp only at hn hm
    rw [hn, hm]
  · intro h
    have hm : x.settled.magnitude = y.settled.magnitude := by rw [h]
    change x.magnitude = y.magnitude at hm
    rw [value_eq_sign_mul x, value_eq_sign_mul y, abs_value, abs_value, h, hm]

theorem rule_eq_iff (x y : Finite) :
    (Double.finite x).rule = (Double.finite y).rule ↔ x.value = y.value := by
  have hrule (z : Finite) : (Double.finite z).rule = .ok (Double.finite z).text :=
    (Double.rule_eq_ok_iff _ _).mpr ⟨trivial, rfl⟩
  rw [value_eq_iff, hrule, hrule, Except.ok.injEq]
  constructor
  · intro h
    exact Double.finite.inj (settled_eq_of_text_eq (x := .finite x) (y := .finite y) trivial trivial h)
  · intro h
    rw [← display_settled, ← display_settled, h]

theorem fraction_ruleNumeral_eq_none_iff (x : Finite) :
    x.ruleNumeral.fraction = none ↔ ∃ k : ℤ, x.value = k := by
  rw [exists_value_eq_intCast_iff, ← Decimal.exponent_shortest_nonneg_iff .above]
  change (if (Decimal.shortest .above x.magnitude).places = 0 then none else some _) = none ↔ _
  rw [ite_eq_left_iff, Decimal.places]
  simp only [reduceCtorEq, imp_false, Decidable.not_not]
  omega

end Double.Finite

/-- The text of a finite number is a plain numeral with a fraction only for what is not whole and a
minus only for what is below zero. It denotes a number that rounds to the number, and no other such
number has fewer significant digits. So it tells any two numbers apart. Infinities and NaN have no
text. -/
theorem Double.rule_shortest :
    (∀ x : Finite, ∃ w : Json.Numeral, w.Plain ∧
      (Double.finite x).rule = .ok (String.ofList w.chars) ∧
      (w.fraction = none ↔ ∃ k : ℤ, x.value = k) ∧ (w.negative = true ↔ x.value < 0) ∧
      RoundsTo w.rational x ∧ ∀ r n, RoundsTo r x → HasDigits n r → HasDigits n w.rational) ∧
    (∀ x y : Finite, (Double.finite x).rule = (Double.finite y).rule ↔ x.value = y.value) ∧
    ∀ n : Double, ¬ n.IsFinite → n.rule = .error (.notFinite n) := by
  refine ⟨?_, Finite.rule_eq_iff, ?_⟩
  · intro x
    exact ⟨x.ruleNumeral, x.plain_ruleNumeral, x.rule_eq_ruleNumeral,
      x.fraction_ruleNumeral_eq_none_iff, x.value_neg_iff.symm, x.roundsTo_ruleNumeral,
      fun _ _ => Finite.hasDigits_ruleNumeral⟩
  · intro n hn
    cases n with
    | finite x => exact (hn trivial).elim
    | _ => rfl

/-- Next to zero the steps are wider than the decimals of one digit, several of which round to the
same number, so one digit is enough. -/
theorem Double.rule_shortest_least :
    ∃ w : Json.Numeral,
      (Double.finite ⟨true, ⟨1, by decide, by decide +kernel⟩⟩).rule = .ok (String.ofList w.chars) ∧
      HasDigits 1 w.rational ∧
      Double.rule (.infinite true) = .error (.notFinite (.infinite true)) := by
  let x : Finite := ⟨true, ⟨1, by decide, by decide +kernel⟩⟩
  let d : Decimal := ⟨5, -324⟩
  have hneg : x.value ≤ 0 := ((x.value_neg_iff).mpr (by decide)).le
  have hround : RoundsTo (-d.rational) x := by
    have habs : |(-d.rational)| = d.rational := by rw [abs_neg, abs_of_nonneg d.rational_nonneg]
    rw [Decimal.roundsTo_iff habs
      (mul_nonneg_of_nonpos_of_nonpos hneg (neg_nonpos.mpr d.rational_nonneg))]
    decide +kernel
  obtain ⟨w, -, hw, -, -, -, hfewest⟩ := Double.rule_shortest.1 x
  refine ⟨w, hw, hfewest _ 1 hround ?_, Double.rule_shortest.2.2 _ id⟩
  rw [← neg_one_mul]
  exact d.hasDigits_rational (-1) (by norm_num) (by decide)

end AccessRules
