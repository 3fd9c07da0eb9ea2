import AccessRules.Decimal.Layout
import AccessRules.Proofs.Delimited

/-! Positional text of a decimal determines its value. -/
namespace AccessRules.Decimal

variable {d e : Decimal} {c : Char}

theorem isDigit_of_mem_whole (h : c ∈ d.whole) : c.isDigit = true :=
  Nat.isDigit_of_mem_toDigits (by decide) (by decide) h

theorem isDigit_of_mem_fraction (h : c ∈ d.fraction) : c.isDigit = true := by
  unfold fraction at h
  split at h
  · cases h
  · rw [List.leftpad, List.mem_append] at h
    rcases h with h | h
    · rw [List.eq_of_mem_replicate h]
      rfl
    · exact Nat.isDigit_of_mem_toDigits (by decide) (by decide) h

theorem isDigit_of_mem_plain (h : c ∈ d.plain) : c.isDigit = true ∨ c = '.' := by
  unfold plain at h
  split at h
  · exact Or.inl (isDigit_of_mem_whole h)
  · rcases List.mem_append.mp h with h | h
    · exact Or.inl (isDigit_of_mem_whole h)
    · rcases List.mem_cons.mp h with h | h
      · exact Or.inr h
      · exact Or.inl (isDigit_of_mem_fraction h)

/-- Positional text starts with a digit. -/
theorem plain_eq_cons (d : Decimal) : ∃ c cs, d.plain = c :: cs ∧ c.isDigit = true := by
  have hne : d.whole ≠ [] := Nat.toDigits_ne_nil
  obtain ⟨c, cs, hw⟩ := List.exists_cons_of_ne_nil hne
  have hc : c.isDigit = true := isDigit_of_mem_whole (hw ▸ List.mem_cons_self)
  unfold plain
  split
  · exact ⟨c, cs, hw, hc⟩
  · exact ⟨c, cs ++ '.' :: d.fraction, by rw [hw, List.cons_append], hc⟩

theorem dot_not_mem_whole (d : Decimal) : '.' ∉ d.whole := by
  intro h
  have hd := isDigit_of_mem_whole h
  exact absurd hd (by decide)

theorem length_fraction (d : Decimal) : d.fraction.length = d.places := by
  unfold fraction
  split
  next h => rw [h, List.length_nil]
  next h =>
    have hlt : d.digits % Nat.pow 10 d.places < 10 ^ d.places :=
      Nat.mod_lt _ (Nat.pow_pos (by decide))
    have hle : (Nat.toDigits 10 (d.digits % Nat.pow 10 d.places)).length ≤ d.places :=
      (Nat.length_toDigits_le_iff (by decide) (Nat.pos_of_ne_zero h)).mpr hlt
    rw [List.length_leftpad]
    omega

theorem ofDigitChars_fraction (d : Decimal) :
    Nat.ofDigitChars 10 d.fraction 0 = d.digits % Nat.pow 10 d.places := by
  unfold fraction
  split
  next h =>
    rw [h, Nat.ofDigitChars_nil]
    exact (Nat.mod_one _).symm
  next h =>
    rw [List.leftpad, Nat.ofDigitChars_append, Nat.ofDigitChars_replicate_zero, Nat.mul_zero,
      Nat.ofDigitChars_ten_toDigits]

theorem eq_of_whole_eq (h : d.whole = e.whole) :
    d.digits * Nat.pow 10 d.exponent.toNat / Nat.pow 10 d.places =
      e.digits * Nat.pow 10 e.exponent.toNat / Nat.pow 10 e.places := by
  have hn := congrArg (fun cs => Nat.ofDigitChars 10 cs 0) h
  simpa only [whole, Nat.ofDigitChars_ten_toDigits] using hn

theorem toNat_exponent_of_places (h : d.places ≠ 0) : d.exponent.toNat = 0 := by
  unfold places at h
  omega

/-- A text with a point has places, and its parts stand before and after the point. -/
theorem eq_of_pointed_eq (hd : d.places ≠ 0) (he : e.places ≠ 0) (h : d.plain = e.plain) :
    d.places = e.places ∧ d.digits = e.digits := by
  rw [plain, plain, if_neg hd, if_neg he] at h
  obtain ⟨hw, hf⟩ := mark_cancel (dot_not_mem_whole d) (dot_not_mem_whole e) h
  have hp : d.places = e.places := by rw [← length_fraction d, ← length_fraction e, hf]
  have hq := eq_of_whole_eq hw
  have hr : d.digits % Nat.pow 10 d.places = e.digits % Nat.pow 10 e.places := by
    rw [← ofDigitChars_fraction, ← ofDigitChars_fraction, hf]
  rw [toNat_exponent_of_places hd, toNat_exponent_of_places he, hp] at hq
  have hq' : d.digits / Nat.pow 10 e.places = e.digits / Nat.pow 10 e.places := by simpa using hq
  refine ⟨hp, ?_⟩
  rw [hp] at hr
  rw [← Nat.div_add_mod d.digits (Nat.pow 10 e.places), hq', hr, Nat.div_add_mod]

/-- Equal texts have equally many places and the same digits. -/
theorem eq_of_plain_eq (h : d.plain = e.plain) :
    d.places = e.places ∧
      d.digits * Nat.pow 10 d.exponent.toNat = e.digits * Nat.pow 10 e.exponent.toNat := by
  by_cases hd : d.places = 0
  · by_cases he : e.places = 0
    · refine ⟨hd.trans he.symm, ?_⟩
      rw [plain, plain, if_pos hd, if_pos he] at h
      have hq := eq_of_whole_eq h
      rw [hd, he] at hq
      simpa using hq
    · rw [plain, plain, if_pos hd, if_neg he] at h
      exact absurd (h ▸ List.mem_append_right _ List.mem_cons_self) (dot_not_mem_whole d)
  · by_cases he : e.places = 0
    · rw [plain, plain, if_neg hd, if_pos he] at h
      exact absurd (h ▸ List.mem_append_right _ List.mem_cons_self) (dot_not_mem_whole e)
    · obtain ⟨hp, hx⟩ := eq_of_pointed_eq hd he h
      rw [toNat_exponent_of_places hd, toNat_exponent_of_places he, hx]
      exact ⟨hp, rfl⟩

end AccessRules.Decimal
