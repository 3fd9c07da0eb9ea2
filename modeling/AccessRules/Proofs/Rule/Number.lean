import AccessRules.Proofs.Decimal.ReadsBack
import AccessRules.Proofs.Rule.Text

/-! The text of a number in a rule determines the number, up to the sign of zero. -/
namespace AccessRules

def isNumberChar (c : Char) : Bool := c.isDigit || c == '-' || c == '.'

namespace Double

namespace Finite

variable {x y : Finite}

theorem toList_display (x : Finite) :
    x.display.toList = if x.negative then '-' :: (Decimal.shortest .above x.magnitude).plain
      else (Decimal.shortest .above x.magnitude).plain := by
  rw [display, String.toList_ofList]

theorem isNumberChar_of_mem_display {c : Char} (h : c ∈ x.display.toList) :
    isNumberChar c = true := by
  have hp (h : c ∈ (Decimal.shortest .above x.magnitude).plain) : isNumberChar c = true := by
    rcases Decimal.isDigit_of_mem_plain h with hd | rfl
    · simp [isNumberChar, hd]
    · rfl
  rw [toList_display] at h
  split at h
  next =>
    rcases List.mem_cons.mp h with rfl | h
    · rfl
    · exact hp h
  next => exact hp h

/-- A number starts with its sign or with a digit. -/
theorem display_eq_cons (x : Finite) :
    ∃ c cs, x.display.toList = c :: cs ∧ (c = '-' ∨ c.isDigit = true) := by
  obtain ⟨c, cs, hc, hd⟩ := (Decimal.shortest .above x.magnitude).plain_eq_cons
  rw [toList_display, hc]
  split
  · exact ⟨'-', c :: cs, rfl, Or.inl rfl⟩
  · exact ⟨c, cs, rfl, Or.inr hd⟩

theorem negative_iff (x : Finite) : x.negative = true ↔ x.display.toList.head? = some '-' := by
  obtain ⟨c, cs, hc, hd⟩ := (Decimal.shortest .above x.magnitude).plain_eq_cons
  rw [toList_display, hc]
  split
  next hn => simp [hn]
  next hn =>
    simp only [hn, List.head?_cons, Option.some.injEq]
    constructor
    · intro h
      cases h
    · rintro rfl
      cases hd

theorem eq_of_display_eq (h : x.display = y.display) : x = y := by
  have hn : x.negative = y.negative := by
    rw [Bool.eq_iff_iff, negative_iff, negative_iff, h]
  have ht := congrArg String.toList h
  rw [toList_display, toList_display, hn] at ht
  have hp : (Decimal.shortest .above x.magnitude).plain =
      (Decimal.shortest .above y.magnitude).plain := by
    split at ht
    · exact (List.cons.inj ht).2
    · exact ht
  have hm := Magnitude.ext_quanta (Decimal.eq_of_plain_shortest_eq hp)
  obtain ⟨s, m⟩ := x
  obtain ⟨t, n⟩ := y
  simp only at hn hm
  rw [hn, hm]

/-- Rule text is display text, but for the sign of zero. -/
theorem display_settled (x : Finite) : x.settled.display = (Double.finite x).text := by
  by_cases hz : x.IsZero
  · have hs : Decimal.shortest .above x.settled.magnitude = ⟨0, 0⟩ := if_pos hz
    have hn : x.settled.negative = false := by simp [settled, hz]
    rw [Double.text, if_pos hz, display, hs, hn]
    decide
  · have hs : x.settled = x := by simp [settled, hz]
    rw [Double.text, if_neg hz, hs]

end Finite

variable {x y : Double}

theorem exists_text_eq_display (hx : x.IsFinite) :
    ∃ f, x.settled = .finite f ∧ x.text = f.display := by
  cases x with
  | nan => exact hx.elim
  | infinite s => exact hx.elim
  | finite x => exact ⟨x.settled, rfl, x.display_settled.symm⟩

theorem isNumberChar_of_mem_text (hx : x.IsFinite) :
    ∀ c ∈ x.text.toList, isNumberChar c = true := by
  obtain ⟨f, -, hf⟩ := exists_text_eq_display hx
  intro c hc
  rw [hf] at hc
  exact Finite.isNumberChar_of_mem_display hc

theorem text_eq_cons (hx : x.IsFinite) :
    ∃ c cs, x.text.toList = c :: cs ∧ (c = '-' ∨ c.isDigit = true) := by
  obtain ⟨f, -, hf⟩ := exists_text_eq_display hx
  rw [hf]
  exact f.display_eq_cons

/-- Two finite numbers have one text only if they are the same number. -/
theorem settled_eq_of_text_eq (hx : x.IsFinite) (hy : y.IsFinite) (h : x.text = y.text) :
    x.settled = y.settled := by
  obtain ⟨f, hxf, hf⟩ := exists_text_eq_display hx
  obtain ⟨g, hyg, hg⟩ := exists_text_eq_display hy
  have hfg : f = g := Finite.eq_of_display_eq (hf.symm.trans (h.trans hg))
  rw [hxf, hyg, hfg]

end Double

theorem toList_toString (n : Nat) : (toString n).toList = Nat.toDigits 10 n := by
  rw [Nat.toString_eq_repr, Nat.toList_repr]

theorem isDigit_of_mem_toString {n : Nat} : ∀ c ∈ (toString n).toList, c.isDigit = true := by
  intro c hc
  rw [toList_toString] at hc
  exact Nat.isDigit_of_mem_toDigits (by decide) (by decide) hc

theorem toString_inj {m n : Nat} (h : toString m = toString n) : m = n := by
  have hd : Nat.toDigits 10 m = Nat.toDigits 10 n := by
    rw [← toList_toString, ← toList_toString, h]
  rw [← @Nat.ofDigitChars_ten_toDigits m, hd, Nat.ofDigitChars_ten_toDigits]

end AccessRules
