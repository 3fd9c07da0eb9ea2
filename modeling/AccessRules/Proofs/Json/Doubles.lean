import AccessRules.Proofs.Decimal.Scaling
import AccessRules.Proofs.Json.Numeral

/-! A printed double is read as the decimal that its text shows, scaled by its power of ten. -/
namespace AccessRules

namespace Json

namespace Numeral

/-- The digits of the exponent, behind their sign. -/
def exponentParts (n : Numeral) : Bool × List Char := n.exponent.getD (false, [])

/-- The signed value of the exponent. -/
def shift (n : Numeral) : Int :=
  if n.exponentParts.1 then -(Nat.ofDigitChars 10 n.exponentParts.2 0 : Int)
  else Nat.ofDigitChars 10 n.exponentParts.2 0

/-- The number that the numeral shows, with all of its digits. -/
def decimal (n : Numeral) : Decimal :=
  ⟨Nat.ofDigitChars 10 (n.whole ++ n.fraction.getD []) 0, n.shift - (n.fraction.getD []).length⟩

theorem significand_of_lt {n : Numeral} (h : n.decimal.digits < wordBound) :
    n.significand = (n.decimal.digits, -((n.fraction.getD []).length : Int)) := by
  have hall : Nat.ofDigitChars 10 (n.fraction.getD []) (Nat.ofDigitChars 10 n.whole 0) =
      n.decimal.digits := by
    rw [decimal, Nat.ofDigitChars_append]
  have hw : Nat.ofDigitChars 10 n.whole 0 ≤ n.decimal.digits := by
    rw [← hall]
    exact le_ofDigitChars _ _
  have hwhole := absorb_of_lt (Nat.lt_of_le_of_lt hw h)
  have hfraction := absorb_of_lt (hall ▸ h)
  unfold significand
  simp only [hwhole, hfraction, hall, Nat.sub_zero, Int.natCast_zero, Int.zero_sub]

theorem double_of_eq {n : Numeral} {digits shift : Nat} {power : Int} {negative : Bool}
    {ds : List Char} {m : Magnitude} (hs : n.significand = (digits, power))
    (he : n.exponentParts = (negative, ds)) (ha : absorb exponentBound 0 ds = (shift, 0))
    (hm : (Magnitude.ofNat? digits >>=
      (scale? · (if negative then power - shift else power + shift))) = some m) :
    n.double = .ok ⟨n.negative, m⟩ := by
  -- Each pair is split where it stands, so that nothing tries to compute the rest.
  unfold double
  split
  next d p hsig =>
    obtain ⟨rfl, rfl⟩ := Prod.mk.inj (hsig.symm.trans hs)
    split
    next s es hexp =>
      obtain ⟨rfl, rfl⟩ := Prod.mk.inj (hexp.symm.trans he)
      split
      next k omitted habs =>
        obtain ⟨rfl, rfl⟩ := Prod.mk.inj (habs.symm.trans ha)
        rw [if_neg (fun h => h rfl)]
        simp only [hm]

/-- Digits that fit 64 bits are all kept, and then only the scaling rounds. -/
theorem value_of_scaled? {n : Numeral} {x : Double.Finite}
    (hform : n.fraction ≠ none ∨ n.exponent ≠ none) (hdigits : n.decimal.digits < wordBound)
    (hshift : n.shift.natAbs < exponentBound) (hx : n.negative = x.negative)
    (hm : n.decimal.scaled? = some x.magnitude) : n.value = .ok (.double x) := by
  have hint : n.integer? = none := by
    unfold integer?
    rw [if_neg]
    rintro ⟨hf, he, -⟩
    rcases hform with h | h
    · exact h hf
    · exact h he
  have habs : n.shift.natAbs = Nat.ofDigitChars 10 n.exponentParts.2 0 := by
    unfold shift
    split <;> omega
  rw [habs] at hshift
  have hexp : n.decimal.exponent =
      if n.exponentParts.1 then
        -((n.fraction.getD []).length : Int) - Nat.ofDigitChars 10 n.exponentParts.2 0
      else -((n.fraction.getD []).length : Int) + Nat.ofDigitChars 10 n.exponentParts.2 0 := by
    simp only [decimal, shift]
    split <;> omega
  rw [Decimal.scaled?, hexp] at hm
  have hd := double_of_eq (significand_of_lt hdigits) rfl (absorb_of_lt hshift) hm
  unfold value
  split
  next heq =>
    rw [hint] at heq
    cases heq
  next =>
    rw [hd, hx]
    rfl

end Numeral

end Json

namespace Decimal

open Json (Numeral)

/-- The parts of positional text with at least one place. -/
def pointedNumeral (negative : Bool) (d : Decimal) : Numeral :=
  ⟨negative, d.whole, some (if d.places = 0 then ['0'] else d.fraction), none⟩

/-- The parts of scientific text: the leading digit, the other digits and the exponent. -/
def scientificNumeral (negative : Bool) (d : Decimal) : Numeral :=
  ⟨negative, (Nat.toDigits 10 d.digits).take 1,
    (if (Nat.toDigits 10 d.digits).drop 1 = [] then none
      else some ((Nat.toDigits 10 d.digits).drop 1)),
    some (decide (d.leadingExponent < 0), Nat.toDigits 10 d.leadingExponent.natAbs)⟩

variable (negative : Bool) (d : Decimal)

theorem chars_pointedNumeral :
    (d.pointedNumeral negative).chars = (if negative then ['-'] else []) ++ d.pointed := by
  simp only [Numeral.chars, pointedNumeral, Numeral.chars.fractionChars,
    Numeral.chars.exponentChars, List.append_nil, pointed]
  by_cases hp : d.places = 0
  · rw [if_pos hp, if_pos hp]
    rfl
  · rw [if_neg hp, if_neg hp]
    rfl

theorem chars_scientificNumeral :
    (d.scientificNumeral negative).chars = (if negative then ['-'] else []) ++ d.scientific := by
  simp only [Numeral.chars, scientificNumeral, Numeral.chars.exponentChars, scientific,
    decide_eq_true_eq]
  cases Nat.toDigits 10 d.digits with
  | nil => rfl
  | cons lead others => cases others <;> rfl

theorem legal_pointedNumeral : (d.pointedNumeral negative).Legal := by
  refine ⟨Numeral.isDigits_toDigits _, Numeral.ne_zero_cons_toDigits _, ?_, by simp [pointedNumeral]⟩
  intro ds hds
  obtain rfl := Option.some.inj hds
  split
  next => exact ⟨List.cons_ne_nil _ _, by simp⟩
  next hp =>
    refine ⟨?_, fun c => isDigit_of_mem_fraction⟩
    rw [← List.length_pos_iff, length_fraction]
    omega

theorem legal_scientificNumeral : (d.scientificNumeral negative).Legal := by
  have hd := (Numeral.isDigits_toDigits d.digits).2
  refine ⟨⟨?_, ?_⟩, ?_, ?_, ?_⟩
  · simp [scientificNumeral]
  · intro c hc
    exact hd c (List.mem_of_mem_take hc)
  · intro c cs h
    have hl := congrArg List.length h
    simp [scientificNumeral] at hl
    omega
  · intro ds hds
    simp only [scientificNumeral] at hds
    split at hds
    next => cases hds
    next hdrop =>
      obtain rfl := Option.some.inj hds
      exact ⟨hdrop, fun c hc => hd c (List.mem_of_mem_drop hc)⟩
  · intro e he
    obtain rfl := Option.some.inj he
    exact Numeral.isDigits_toDigits _

theorem shift_scientificNumeral : (d.scientificNumeral negative).shift = d.leadingExponent := by
  simp only [Numeral.shift, Numeral.exponentParts, scientificNumeral, Option.getD_some,
    Nat.ofDigitChars_ten_toDigits, decide_eq_true_eq]
  split <;> omega

/-- Scientific text shows the decimal itself. -/
theorem decimal_scientificNumeral : (d.scientificNumeral negative).decimal = d := by
  have hall : (d.scientificNumeral negative).whole ++
      (d.scientificNumeral negative).fraction.getD [] = Nat.toDigits 10 d.digits := by
    simp only [scientificNumeral]
    split
    next h => rw [Option.getD_none, ← h, List.take_append_drop]
    next => rw [Option.getD_some, List.take_append_drop]
  have hlen : ((d.scientificNumeral negative).fraction.getD []).length =
      (Nat.toDigits 10 d.digits).length - 1 := by
    simp only [scientificNumeral]
    split
    next h => rw [Option.getD_none, ← h, List.length_drop]
    next => rw [Option.getD_some, List.length_drop]
  have hpos : 0 < (Nat.toDigits 10 d.digits).length :=
    List.length_pos_iff.mpr Nat.toDigits_ne_nil
  have hexp : d.leadingExponent - ((Nat.toDigits 10 d.digits).length - 1 : Nat) = d.exponent := by
    unfold leadingExponent
    omega
  rw [Numeral.decimal, hall, hlen, shift_scientificNumeral, Nat.ofDigitChars_ten_toDigits, hexp]

variable {d}

/-- Positional text with places shows the decimal itself. -/
theorem decimal_pointedNumeral (h : d.places ≠ 0) : (d.pointedNumeral negative).decimal = d := by
  have hexp : d.exponent = -(d.places : Int) := by
    unfold places at h ⊢
    omega
  have hdigits : Nat.ofDigitChars 10 (d.whole ++ d.fraction) 0 = d.digits := by
    rw [Nat.ofDigitChars_append, Nat.ofDigitChars_eq_ofDigitChars_zero, length_fraction,
      ofDigitChars_fraction, whole, Nat.ofDigitChars_ten_toDigits, toNat_exponent_of_places h]
    have hone : Nat.pow 10 0 = 1 := rfl
    rw [hone, Nat.mul_one]
    exact Nat.div_add_mod d.digits (Nat.pow 10 d.places)
  rw [Numeral.decimal]
  simp only [pointedNumeral, if_neg h, Option.getD_some, hdigits, length_fraction]
  have hs : Numeral.shift ⟨negative, d.whole, some d.fraction, none⟩ = 0 := rfl
  rw [hs, Int.zero_sub, ← hexp]

/-- A whole number is shown with a zero after the point. -/
theorem decimal_pointedNumeral_of_whole (h : d.places = 0) :
    (d.pointedNumeral negative).decimal =
      ⟨d.digits * Nat.pow 10 d.exponent.toNat * 10, -1⟩ := by
  have hone : Nat.pow 10 0 = 1 := rfl
  have hdigits : Nat.ofDigitChars 10 (d.whole ++ ['0']) 0 =
      d.digits * Nat.pow 10 d.exponent.toNat * 10 := by
    rw [Nat.ofDigitChars_append, whole, Nat.ofDigitChars_ten_toDigits, h, hone, Nat.div_one,
      Nat.mul_comm _ 10]
    rfl
  rw [Numeral.decimal]
  simp only [pointedNumeral, if_pos h, Option.getD_some, hdigits]
  rfl

theorem units_of_whole (h : 0 ≤ d.exponent) :
    units ⟨d.digits * Nat.pow 10 d.exponent.toNat * 10, -1⟩ = d.units := by
  unfold units
  simp only
  generalize hk : ((-1 : Int) + 1074).toNat = k
  have hsum : d.exponent.toNat + (k + 1) = (d.exponent + 1074).toNat := by omega
  have hten : 10 * Nat.pow 10 k = Nat.pow 10 (k + 1) := (Nat.pow_succ').symm
  rw [← ten_pow_mul hsum rfl, ← hten]
  ac_rfl

end Decimal

namespace Double.Finite

open Decimal (shortest)

variable (x : Finite)

def numeral : Json.Numeral :=
  let d := shortest .even x.magnitude
  if -5 ≤ d.leadingExponent ∧ d.leadingExponent ≤ 15 then d.pointedNumeral x.negative
  else d.scientificNumeral x.negative

theorem doubleChars_eq : Json.doubleChars x = x.numeral.chars := by
  unfold Json.doubleChars numeral
  simp only
  by_cases h : -5 ≤ (shortest .even x.magnitude).leadingExponent ∧
      (shortest .even x.magnitude).leadingExponent ≤ 15
  · rw [if_pos h, if_pos h, Decimal.chars_pointedNumeral]
    split <;> rfl
  · rw [if_neg h, if_neg h, Decimal.chars_scientificNumeral]
    split <;> rfl

theorem legal_numeral : x.numeral.Legal := by
  unfold numeral
  simp only
  split
  · exact Decimal.legal_pointedNumeral _ _
  · exact Decimal.legal_scientificNumeral _ _

theorem negative_numeral : x.numeral.negative = x.negative := by
  unfold numeral
  simp only
  split <;> rfl

/-- A double is never printed as a plain integer. -/
theorem numeral_form : x.numeral.fraction ≠ none ∨ x.numeral.exponent ≠ none := by
  unfold numeral
  simp only
  split
  · exact Or.inl (Option.some_ne_none _)
  · exact Or.inr (Option.some_ne_none _)

/-- The text shows the shortest decimal, or a whole number with a zero after the point. -/
theorem numeral_decimal_cases :
    x.numeral.decimal = shortest .even x.magnitude ∧
        ((shortest .even x.magnitude).exponent < 0 ∨ x.magnitude.quanta ≠ 0) ∨
      0 ≤ (shortest .even x.magnitude).exponent ∧
        (shortest .even x.magnitude).leadingExponent ≤ 15 ∧
        x.numeral.decimal = ⟨(shortest .even x.magnitude).digits *
          Nat.pow 10 (shortest .even x.magnitude).exponent.toNat * 10, -1⟩ := by
  unfold numeral
  simp only
  split
  next h =>
    by_cases hp : (shortest .even x.magnitude).places = 0
    · refine Or.inr ⟨?_, h.2, Decimal.decimal_pointedNumeral_of_whole _ hp⟩
      unfold Decimal.places at hp
      omega
    · refine Or.inl ⟨Decimal.decimal_pointedNumeral _ hp, Or.inl ?_⟩
      unfold Decimal.places at hp
      omega
  next h =>
    refine Or.inl ⟨Decimal.decimal_scientificNumeral _ _, Or.inr ?_⟩
    intro hz
    rw [shortest, if_pos hz] at h
    exact h (by decide)

theorem digits_shortest_le (m : Magnitude) :
    (shortest .even m).digits ≤ 1000000000000000000 := by
  by_cases hz : m.quanta = 0
  · rw [shortest, if_pos hz]
    exact Nat.zero_le _
  · exact (Decimal.digits_shortest .even hz).2

theorem digits_numeral_lt : x.numeral.decimal.digits < Json.Numeral.wordBound := by
  unfold Json.Numeral.wordBound
  rcases x.numeral_decimal_cases with ⟨hd, -⟩ | ⟨he, hlead, hd⟩
  · rw [hd]
    have hle := digits_shortest_le x.magnitude
    omega
  · rw [hd]
    simp only
    generalize shortest .even x.magnitude = d at he hlead ⊢
    -- The digits before the point are at most sixteen.
    have hlen : 0 < (Nat.toDigits 10 d.digits).length :=
      List.length_pos_iff.mpr Nat.toDigits_ne_nil
    have hdigits : d.digits < 10 ^ (Nat.toDigits 10 d.digits).length :=
      (Nat.length_toDigits_le_iff (by decide) hlen).mp (Nat.le_refl _)
    have hlt : d.digits * Nat.pow 10 d.exponent.toNat < 10 ^ 16 := by
      calc
        d.digits * 10 ^ d.exponent.toNat
          < 10 ^ (Nat.toDigits 10 d.digits).length * 10 ^ d.exponent.toNat :=
            Nat.mul_lt_mul_of_pos_right hdigits (Nat.pow_pos (by decide))
        _ = 10 ^ ((Nat.toDigits 10 d.digits).length + d.exponent.toNat) := (Nat.pow_add ..).symm
        _ ≤ 10 ^ 16 := by
          unfold Decimal.leadingExponent at hlead
          exact Nat.pow_le_pow_right (by decide) (by omega)
    omega

theorem shift_numeral_lt : x.numeral.shift.natAbs < Json.Numeral.exponentBound := by
  unfold Json.Numeral.exponentBound numeral
  simp only
  split
  next =>
    have hs : ((shortest .even x.magnitude).pointedNumeral x.negative).shift = 0 := rfl
    rw [hs]
    decide
  next =>
    have hlow := (Decimal.roundsTo_shortest .even x.magnitude).1
    have hhigh := Decimal.exponent_shortest_le .even x.magnitude
    have hdigits := digits_shortest_le x.magnitude
    have hlen : (Nat.toDigits 10 (shortest .even x.magnitude).digits).length ≤ 19 :=
      (Nat.length_toDigits_le_iff (by decide) (by decide)).mpr (by omega)
    rw [Decimal.shift_scientificNumeral, Decimal.leadingExponent]
    omega

/-- No printed double overflows when it is read. -/
theorem exists_scaled?_numeral : ∃ m, x.numeral.decimal.scaled? = some m := by
  rcases x.numeral_decimal_cases with ⟨hd, hcase⟩ | ⟨-, -, hd⟩
  · by_cases he : (shortest .even x.magnitude).exponent < 0
    · exact Decimal.exists_scaled?_of_neg x.digits_numeral_lt (by rwa [hd])
    · rw [hd]
      exact Decimal.exists_scaled?_shortest (hcase.resolve_left he) (by omega)
  · exact Decimal.exists_scaled?_of_neg x.digits_numeral_lt (by simp only [hd]; omega)

theorem isSome_scaled?_numeral : x.numeral.decimal.scaled?.isSome = true :=
  Option.isSome_iff_exists.mpr x.exists_scaled?_numeral

/-- The magnitude that is read from the text of a double. -/
@[irreducible] def reparsedMagnitude : Magnitude :=
  x.numeral.decimal.scaled?.get x.isSome_scaled?_numeral

theorem scaled?_numeral : x.numeral.decimal.scaled? = some x.reparsedMagnitude := by
  unfold reparsedMagnitude
  rw [Option.some_get]

def reparsed : Finite := ⟨x.negative, x.reparsedMagnitude⟩

theorem negative_mk (s : Bool) (m : Magnitude) : (Finite.mk s m).negative = s := rfl

theorem magnitude_mk (s : Bool) (m : Magnitude) : (Finite.mk s m).magnitude = m := rfl

-- The two parts are taken apart by name, since nothing may compare the magnitudes by computing them.
theorem negative_reparsed : x.reparsed.negative = x.negative := by
  unfold reparsed
  exact negative_mk _ _

theorem magnitude_reparsed : x.reparsed.magnitude = x.reparsedMagnitude := by
  unfold reparsed
  exact magnitude_mk _ _

/-- The text shows a number that rounds to the double. -/
theorem roundsTo_numeral : x.numeral.decimal.RoundsTo x.magnitude.quanta := by
  have hround := Decimal.roundsTo_shortest .even x.magnitude
  rcases x.numeral_decimal_cases with ⟨hd, -⟩ | ⟨he, -, hd⟩
  · rwa [hd]
  · rw [hd]
    refine ⟨by simp only; omega, ?_⟩
    rw [Decimal.units_of_whole he, hround.2]

/-- Digits of at most 53 bits and a power of ten up to 22 are read exactly. -/
theorem reparsed_of_short (hdigits : x.numeral.decimal.digits ≤ 9007199254740992)
    (hexp : x.numeral.decimal.exponent.natAbs ≤ 22) : x.reparsed = x := by
  have hs := Decimal.scaled?_of_roundsTo x.roundsTo_numeral hdigits hexp
  have hm : x.reparsedMagnitude = x.magnitude := Option.some.inj (x.scaled?_numeral.symm.trans hs)
  rw [reparsed, hm]

end Double.Finite

namespace Json

theorem readNumber_double (x : Double.Finite) (rest : List Char)
    (hr : StopsRun extendsNumeral rest) :
    readNumber ((Number.double x).chars ++ rest) = .ok (.double x.reparsed, rest) := by
  have hs : x.numeral.negative = x.reparsed.negative := by
    rw [x.negative_numeral, x.negative_reparsed]
  have hm : x.numeral.decimal.scaled? = some x.reparsed.magnitude := by
    rw [x.scaled?_numeral, x.magnitude_reparsed]
  have hv := Numeral.value_of_scaled? x.numeral_form x.digits_numeral_lt x.shift_numeral_lt hs hm
  rw [Number.chars, x.doubleChars_eq]
  exact readNumber_of_value (Numeral.readNumeral_chars x.legal_numeral hr) hv

def Number.reparsed : Number → Number
  | .integer n range => .integer n range
  | .double x => .double x.reparsed

/-- Every number is accepted where its text stands. -/
theorem readNumber_chars (n : Number) (rest : List Char) (hr : StopsRun extendsNumeral rest) :
    readNumber (n.chars ++ rest) = .ok (n.reparsed, rest) := by
  cases n with
  | integer n range => exact Number.readsBack_integer n range rest hr
  | double x => exact readNumber_double x rest hr

end Json

end AccessRules
