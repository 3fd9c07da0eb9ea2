import AccessRules.Json.Printer
import AccessRules.Json.Reader.Numeral
import AccessRules.Proofs.Delimited
import AccessRules.Proofs.Outcome

/-! Numerals are read as the grammar has them, and integers are read back as they were printed. -/
namespace AccessRules.Json

/-- The character could go on with a numeral. -/
def extendsNumeral (c : Char) : Bool := c.isDigit || c == '.' || c == 'e' || c == 'E'

/-- The number is read from its own text, if that does not go on as a numeral. -/
def Number.ReadsBack (n : Number) : Prop :=
  ∀ rest, StopsRun extendsNumeral rest → readNumber (n.chars ++ rest) = .ok (n, rest)

section Digits

variable {ds rest : List Char}

/-- No digit goes on with a numeral that ends. -/
theorem stopsRun_isDigit (hr : StopsRun extendsNumeral rest) : StopsRun Char.isDigit rest := by
  cases rest with
  | nil => trivial
  | cons c rest =>
    simp only [StopsRun, extendsNumeral, Bool.or_eq_false_iff] at hr
    exact hr.1.1.1

theorem spanDigits_append (hd : ∀ c ∈ ds, c.isDigit = true) (hr : StopsRun Char.isDigit rest) :
    spanDigits (ds ++ rest) = (ds, rest) := by
  have hs : rest.takeWhile Char.isDigit = [] ∧ rest.dropWhile Char.isDigit = rest := by
    cases rest with
    | nil => exact ⟨rfl, rfl⟩
    | cons c rest =>
      have hc : c.isDigit = false := hr
      simp [hc]
  rw [spanDigits, List.takeWhile_append_of_pos hd, List.dropWhile_append_of_pos hd, hs.1, hs.2,
    List.append_nil]

theorem readDigits_append (hne : ds ≠ []) (hd : ∀ c ∈ ds, c.isDigit = true)
    (hr : StopsRun Char.isDigit rest) : readDigits (ds ++ rest) = .ok (ds, rest) := by
  obtain ⟨c, cs, rfl⟩ := List.exists_cons_of_ne_nil hne
  rw [List.cons_append, readDigits, if_pos (hd c List.mem_cons_self), ← List.cons_append,
    spanDigits_append hd hr]

/-- Only the digits of zero start with a zero. -/
theorem head?_toDigits_ne_zero {n : Nat} (hn : 0 < n) : (Nat.toDigits 10 n).head? ≠ some '0' := by
  induction n using Nat.strongRecOn with
  | ind n ih =>
    by_cases h : n < 10
    · rw [Nat.toDigits_of_lt_base h]
      simp
      omega
    · have hq : 0 < n / 10 := by omega
      rw [Nat.toDigits_of_base_le (by decide) (by omega), List.head?_append]
      have hi := ih (n / 10) (by omega) hq
      cases hh : (Nat.toDigits 10 (n / 10)).head? with
      | none => exact absurd (List.head?_eq_none_iff.mp hh) Nat.toDigits_ne_nil
      | some c => rwa [hh] at hi

end Digits

section Layout

namespace Numeral

/-- The text of a numeral, with a sign before the exponent. -/
def chars (n : Numeral) : List Char :=
  (if n.negative then ['-'] else []) ++ (n.whole ++ (fractionChars n.fraction ++
    exponentChars n.exponent))
where
  fractionChars : Option (List Char) → List Char
    | some ds => '.' :: ds
    | none => []
  exponentChars : Option (Bool × List Char) → List Char
    | some (negative, ds) => 'e' :: (if negative then '-' else '+') :: ds
    | none => []

/-- At least one digit. -/
def IsDigits (ds : List Char) : Prop := ds ≠ [] ∧ ∀ c ∈ ds, c.isDigit = true

theorem isDigits_toDigits (n : Nat) : IsDigits (Nat.toDigits 10 n) :=
  ⟨Nat.toDigits_ne_nil, fun _ hc => Nat.isDigit_of_mem_toDigits (by decide) (by decide) hc⟩

/-- The numeral has digits in each of its parts, and no zero before another digit. -/
structure Legal (n : Numeral) : Prop where
  whole : IsDigits n.whole
  leading : ∀ d ds, n.whole ≠ '0' :: d :: ds
  fraction : ∀ ds ∈ n.fraction, IsDigits ds
  exponent : ∀ e ∈ n.exponent, IsDigits e.2

/-- The text of an exponent: either letter, and a sign that may be left out. -/
inductive ExponentText : Option (Bool × List Char) → List Char → Prop
  | none : ExponentText none []
  | unsigned {mark : Char} (hm : mark = 'e' ∨ mark = 'E') (ds : List Char) :
      ExponentText (some (false, ds)) (mark :: ds)
  | signed {mark : Char} (hm : mark = 'e' ∨ mark = 'E') (negative : Bool) (ds : List Char) :
      ExponentText (some (negative, ds)) (mark :: (if negative then '-' else '+') :: ds)

/-- The text is a numeral with the given parts: a minus, digits, a fraction and an exponent, of which
only the digits are required. -/
inductive Spells (n : Numeral) : List Char → Prop
  | intro {exponent : List Char} (legal : n.Legal) (he : ExponentText n.exponent exponent) :
      Spells n ((if n.negative then ['-'] else []) ++
        (n.whole ++ (chars.fractionChars n.fraction ++ exponent)))

theorem spells_chars {n : Numeral} (hn : n.Legal) : n.Spells n.chars := by
  refine .intro hn ?_
  cases n.exponent with
  | none => exact .none
  | some e => exact .signed (Or.inl rfl) e.1 e.2

theorem ne_zero_cons_toDigits (n : Nat) (d : Char) (ds : List Char) :
    Nat.toDigits 10 n ≠ '0' :: d :: ds := by
  intro h
  rcases Nat.eq_zero_or_pos n with rfl | hpos
  · rw [Nat.toDigits_zero] at h
    cases h
  · exact head?_toDigits_ne_zero hpos (by rw [h, List.head?_cons])

section Parts

variable {rest : List Char}

theorem readMinus_digits {ds : List Char} (hd : IsDigits ds) (rest : List Char) :
    readMinus (ds ++ rest) = (false, ds ++ rest) := by
  obtain ⟨c, cs, rfl⟩ := List.exists_cons_of_ne_nil hd.1
  have hc := hd.2 c List.mem_cons_self
  rw [List.cons_append]
  unfold readMinus
  split
  next heq =>
    cases heq
    cases hc
  next => rfl

theorem readWhole_digits {ds : List Char} (hd : IsDigits ds) (hz : ∀ e es, ds ≠ '0' :: e :: es)
    (hr : StopsRun Char.isDigit rest) : readWhole (ds ++ rest) = .ok (ds, rest) := by
  rw [readWhole, readDigits_append hd.1 hd.2 hr]
  split
  next heq =>
    cases heq
    exact (hz _ _ rfl).elim
  next => rfl

theorem stopsRun_fractionChars (fraction : Option (List Char)) (hr : StopsRun Char.isDigit rest) :
    StopsRun Char.isDigit (chars.fractionChars fraction ++ rest) := by
  cases fraction with
  | some ds => rfl
  | none => exact hr

theorem readFraction_chars {fraction : Option (List Char)} (hf : ∀ ds ∈ fraction, IsDigits ds)
    (hd : StopsRun Char.isDigit rest) (hp : StopsRun (· == '.') rest) :
    readFraction (chars.fractionChars fraction ++ rest) = .ok (fraction, rest) := by
  cases fraction with
  | some ds =>
    obtain ⟨hne, hds⟩ := hf ds rfl
    rw [chars.fractionChars, List.cons_append, readFraction, readDigits_append hne hds hd]
    rfl
  | none =>
    rw [chars.fractionChars, List.nil_append]
    unfold readFraction
    split
    next => cases hp
    next => rfl

theorem readSign_digits {ds : List Char} (hd : IsDigits ds) (rest : List Char) :
    readSign (ds ++ rest) = (false, ds ++ rest) := by
  have hm := readMinus_digits hd rest
  obtain ⟨c, cs, rfl⟩ := List.exists_cons_of_ne_nil hd.1
  have hc := hd.2 c List.mem_cons_self
  rw [List.cons_append] at hm ⊢
  unfold readSign
  split
  next heq =>
    cases heq
    cases hc
  next => exact hm

theorem readExponent_text {exponent : Option (Bool × List Char)} {text : List Char}
    (h : ExponentText exponent text) (he : ∀ e ∈ exponent, IsDigits e.2)
    (hr : StopsRun extendsNumeral rest) : readExponent (text ++ rest) = .ok (exponent, rest) := by
  cases h with
  | none =>
    rw [List.nil_append]
    cases rest with
    | nil => rfl
    | cons c rest =>
      simp only [StopsRun, extendsNumeral, Bool.or_eq_false_iff, beq_eq_false_iff_ne] at hr
      rw [readExponent, if_neg (by simp [hr])]
  | unsigned hm ds =>
    have hds : IsDigits ds := he _ rfl
    have hd := readDigits_append hds.1 hds.2 (stopsRun_isDigit hr)
    rw [List.cons_append, readExponent, if_pos hm, readSign_digits hds]
    simp only [hd, Outcome.ok_bind, Outcome.pure_eq]
  | signed hm negative ds =>
    have hds : IsDigits ds := he _ rfl
    have hd := readDigits_append hds.1 hds.2 (stopsRun_isDigit hr)
    have hs : readSign ((if negative then '-' else '+') :: (ds ++ rest)) = (negative, ds ++ rest) := by
      cases negative <;> rfl
    rw [List.cons_append, List.cons_append, readExponent, if_pos hm, hs]
    simp only [hd, Outcome.ok_bind, Outcome.pure_eq]

/-- An exponent starts with its letter. -/
theorem ExponentText.stopsRun {exponent : Option (Bool × List Char)} {text : List Char}
    (h : ExponentText exponent text) {p : Char → Bool} (he : p 'e' = false) (hE : p 'E' = false)
    (hr : StopsRun p rest) : StopsRun p (text ++ rest) := by
  have hmark {mark : Char} (hm : mark = 'e' ∨ mark = 'E') : p mark = false := by
    rcases hm with rfl | rfl
    · exact he
    · exact hE
  cases h with
  | none => exact hr
  | unsigned hm ds => exact hmark hm
  | signed hm negative ds => exact hmark hm

end Parts

/-- A numeral is scanned into the parts that its text is made of. -/
theorem Spells.readNumeral_append {n : Numeral} {token rest : List Char} (h : n.Spells token)
    (hr : StopsRun extendsNumeral rest) : readNumeral (token ++ rest) = .ok (n, rest) := by
  obtain ⟨hn, hexponent⟩ := h
  obtain ⟨negative, whole, fraction, exponent⟩ := n
  -- What follows the digits of a part starts with another mark or ends the numeral.
  have hdot : StopsRun (· == '.') rest := by
    cases rest with
    | nil => trivial
    | cons c rest =>
      simp only [StopsRun, extendsNumeral, Bool.or_eq_false_iff] at hr
      exact hr.1.1.2
  have hpoint := hexponent.stopsRun (p := (· == '.')) rfl rfl hdot
  have hexp := hexponent.stopsRun (p := Char.isDigit) rfl rfl (stopsRun_isDigit hr)
  have hw := readWhole_digits hn.whole hn.leading (stopsRun_fractionChars fraction hexp)
  have hf := readFraction_chars hn.fraction hexp hpoint
  have he := readExponent_text hexponent hn.exponent hr
  unfold readNumeral
  cases negative with
  | true =>
    simp only [if_true, List.nil_append, List.cons_append, List.append_assoc, readMinus, hw, hf, he,
      Outcome.ok_bind, Outcome.pure_eq]
  | false =>
    simp only [Bool.false_eq_true, if_false, List.nil_append, List.append_assoc,
      readMinus_digits hn.whole, hw, hf, he, Outcome.ok_bind, Outcome.pure_eq]

theorem readNumeral_chars {n : Numeral} (hn : n.Legal) {rest : List Char}
    (hr : StopsRun extendsNumeral rest) : readNumeral (n.chars ++ rest) = .ok (n, rest) :=
  (spells_chars hn).readNumeral_append hr

section Scanned

variable {cs rest : List Char}

theorem of_readMinus {negative : Bool} (h : readMinus cs = (negative, rest)) :
    cs = (if negative then ['-'] else []) ++ rest := by
  unfold readMinus at h
  split at h <;> cases h <;> rfl

theorem of_readDigits {ds : List Char} (h : readDigits cs = .ok (ds, rest)) :
    IsDigits ds ∧ cs = ds ++ rest := by
  unfold readDigits at h
  split at h
  next => cases h
  next c tail =>
    split at h
    next hc =>
      cases h
      refine ⟨⟨?_, List.all_eq_true.mp List.all_takeWhile⟩, List.takeWhile_append_dropWhile.symm⟩
      rw [List.takeWhile_cons_of_pos hc]
      exact List.cons_ne_nil _ _
    next => cases h

theorem of_readWhole {ds : List Char} (h : readWhole cs = .ok (ds, rest)) :
    IsDigits ds ∧ (∀ d es, ds ≠ '0' :: d :: es) ∧ cs = ds ++ rest := by
  unfold readWhole at h
  split at h
  next => cases h
  next hz =>
    obtain ⟨hd, hcs⟩ := of_readDigits h
    refine ⟨hd, ?_, hcs⟩
    rintro d es rfl
    exact hz d es rest h

theorem of_readFraction {fraction : Option (List Char)} (h : readFraction cs = .ok (fraction, rest)) :
    (∀ ds ∈ fraction, IsDigits ds) ∧ cs = chars.fractionChars fraction ++ rest := by
  unfold readFraction at h
  split at h
  next cs =>
    obtain ⟨⟨ds, _⟩, hd, h⟩ := Outcome.bind_eq_ok_iff.mp h
    cases h
    obtain ⟨hds, rfl⟩ := of_readDigits hd
    exact ⟨fun _ he => Option.some.inj he ▸ hds, rfl⟩
  next =>
    cases h
    exact ⟨by simp, rfl⟩

theorem of_readSign {negative : Bool} (h : readSign cs = (negative, rest)) :
    negative = false ∧ cs = rest ∨ cs = (if negative then '-' else '+') :: rest := by
  unfold readSign readMinus at h
  split at h
  next =>
    cases h
    exact Or.inr rfl
  next =>
    split at h
    next =>
      cases h
      exact Or.inr rfl
    next =>
      cases h
      exact Or.inl ⟨rfl, rfl⟩

theorem of_readExponent {exponent : Option (Bool × List Char)}
    (h : readExponent cs = .ok (exponent, rest)) :
    (∀ e ∈ exponent, IsDigits e.2) ∧ ∃ text, ExponentText exponent text ∧ cs = text ++ rest := by
  unfold readExponent at h
  split at h
  next =>
    cases h
    exact ⟨by simp, [], .none, rfl⟩
  next mark tail =>
    split at h
    next hm =>
      rcases hsign : readSign tail with ⟨negative, digits⟩
      rw [hsign] at h
      obtain ⟨⟨ds, _⟩, hd, h⟩ := Outcome.bind_eq_ok_iff.mp h
      cases h
      obtain ⟨hds, rfl⟩ := of_readDigits hd
      refine ⟨fun _ he => Option.some.inj he ▸ hds, ?_⟩
      rcases of_readSign hsign with ⟨rfl, rfl⟩ | rfl
      · exact ⟨_, .unsigned hm ds, rfl⟩
      · exact ⟨_, .signed hm negative ds, rfl⟩
    next =>
      cases h
      exact ⟨by simp, [], .none, rfl⟩

/-- Nothing else is scanned as a numeral. -/
theorem spells_of_readNumeral {n : Numeral} (h : readNumeral cs = .ok (n, rest)) :
    ∃ token, n.Spells token ∧ cs = token ++ rest := by
  unfold readNumeral at h
  rcases hminus : readMinus cs with ⟨negative, cs₀⟩
  rw [hminus] at h
  obtain ⟨⟨whole, cs₁⟩, hw, h⟩ := Outcome.bind_eq_ok_iff.mp h
  obtain ⟨⟨fraction, cs₂⟩, hf, h⟩ := Outcome.bind_eq_ok_iff.mp h
  obtain ⟨⟨exponent, cs₃⟩, he, h⟩ := Outcome.bind_eq_ok_iff.mp h
  cases h
  obtain ⟨hdigits, hleading, rfl⟩ := of_readWhole hw
  obtain ⟨hfraction, rfl⟩ := of_readFraction hf
  obtain ⟨hexponent, text, htext, rfl⟩ := of_readExponent he
  refine ⟨_, .intro ⟨hdigits, hleading, hfraction, hexponent⟩ htext, ?_⟩
  rw [of_readMinus hminus]
  simp only [List.append_assoc]

/-- The scanner takes exactly the texts of the grammar. -/
theorem spells_iff (n : Numeral) (token : List Char) :
    n.Spells token ↔ readNumeral token = .ok (n, []) := by
  constructor
  · intro h
    have hr : readNumeral (token ++ []) = .ok (n, []) := h.readNumeral_append trivial
    rwa [List.append_nil] at hr
  · intro h
    obtain ⟨token', hs, rfl⟩ := spells_of_readNumeral h
    rwa [List.append_nil]

end Scanned

end Numeral

end Layout

theorem readNumeral_integer (n : Int) (range : -9223372036854775808 ≤ n ∧ n < 18446744073709551616)
    {rest : List Char} (hr : StopsRun extendsNumeral rest) :
    readNumeral ((Number.integer n range).chars ++ rest) =
      .ok (⟨decide (n < 0), Nat.toDigits 10 n.natAbs, none, none⟩, rest) := by
  have hl : Numeral.Legal ⟨decide (n < 0), Nat.toDigits 10 n.natAbs, none, none⟩ :=
    ⟨Numeral.isDigits_toDigits _, Numeral.ne_zero_cons_toDigits _, by simp, by simp⟩
  have hc : (Number.integer n range).chars =
      Numeral.chars ⟨decide (n < 0), Nat.toDigits 10 n.natAbs, none, none⟩ := by
    by_cases hn : n < 0 <;>
      simp [Number.chars, Numeral.chars, Numeral.chars.fractionChars, Numeral.chars.exponentChars, hn]
  rw [hc, Numeral.readNumeral_chars hl hr]

section Value

/-- Every further digit only makes the number larger. -/
theorem Numeral.le_ofDigitChars (n : Nat) (ds : List Char) : n ≤ Nat.ofDigitChars 10 ds n := by
  rw [Nat.ofDigitChars_eq_ofDigitChars_zero]
  have hpow : 0 < 10 ^ ds.length := Nat.pow_pos (by decide)
  exact Nat.le_add_right_of_le (Nat.le_mul_of_pos_left _ hpow)

/-- All digits are kept if the number that they make is below the bound. -/
theorem Numeral.absorb_of_lt {bound n : Nat} {ds : List Char}
    (h : Nat.ofDigitChars 10 ds n < bound) :
    absorb bound n ds = (Nat.ofDigitChars 10 ds n, 0) := by
  induction ds generalizing n with
  | nil => rfl
  | cons d ds ih =>
    have hv : 10 * n + (d.toNat - '0'.toNat) = n * 10 + digitValue d := by
      rw [Nat.mul_comm]
      rfl
    rw [Nat.ofDigitChars_cons, hv] at h ⊢
    have hle := le_ofDigitChars (n * 10 + digitValue d) ds
    rw [absorb, if_pos (Nat.lt_of_le_of_lt hle h), ih h]

theorem Numeral.value_integer (n : Int)
    (range : -9223372036854775808 ≤ n ∧ n < 18446744073709551616) :
    (⟨decide (n < 0), Nat.toDigits 10 n.natAbs, none, none⟩ : Numeral).value =
      .ok (.integer n range) := by
  have hlt : Nat.ofDigitChars 10 (Nat.toDigits 10 n.natAbs) 0 < wordBound := by
    rw [Nat.ofDigitChars_ten_toDigits, wordBound]
    omega
  have ha := absorb_of_lt hlt
  rw [Nat.ofDigitChars_ten_toDigits] at ha
  unfold value integer?
  by_cases hn : n < 0
  · have hb : 0 < n.natAbs ∧ n.natAbs ≤ 9223372036854775808 := by omega
    have hneg : -(n.natAbs : Int) = n := by omega
    simp only [ha, hn, hb, hneg, and_self, decide_true, if_true, dif_pos]
  · have hpos : (n.natAbs : Int) = n := by omega
    simp only [ha, hn, hpos, and_self, decide_false, Bool.false_eq_true, if_true, if_false]

end Value

theorem readNumber_of_value {cs rest : List Char} {numeral : Numeral} {n : Number}
    (hn : readNumeral cs = .ok (numeral, rest)) (hv : numeral.value = .ok n) :
    readNumber cs = .ok (n, rest) := by
  rw [readNumber, hn, Outcome.ok_bind]
  simp only [hv]
  rfl

theorem Number.readsBack_integer (n : Int)
    (range : -9223372036854775808 ≤ n ∧ n < 18446744073709551616) :
    (Number.integer n range).ReadsBack := by
  intro rest hr
  exact readNumber_of_value (readNumeral_integer n range hr) (Numeral.value_integer n range)

/-- A number starts with its sign or with a digit. -/
theorem exists_cons_of_readNumber {cs rest : List Char} {n : Number}
    (h : readNumber cs = .ok (n, rest)) :
    ∃ c tail, cs = c :: tail ∧ (c = '-' ∨ c.isDigit = true) := by
  obtain ⟨⟨numeral, _⟩, hn, -⟩ := Outcome.bind_eq_ok_iff.mp h
  cases cs with
  | nil => cases hn
  | cons c tail =>
    refine ⟨c, tail, rfl, ?_⟩
    by_cases hc : c = '-'
    · exact Or.inl hc
    · refine Or.inr ?_
      cases hd : c.isDigit with
      | true => rfl
      | false =>
        simp [readNumeral, readMinus, hc, readWhole, readDigits, hd] at hn

end AccessRules.Json
