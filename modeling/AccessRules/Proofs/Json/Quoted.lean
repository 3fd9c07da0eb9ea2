import AccessRules.Json.Printer
import AccessRules.Json.Reader.Quoted
import AccessRules.Proofs.Outcome
import Mathlib.Tactic.SplitIfs

/-! Quoted strings are read back as they were printed. -/
namespace AccessRules.Json

section Characters

variable {c : Char} {cs found rest : List Char} (hr : readQuoted cs = .ok (found, rest))

include hr

theorem readQuoted_letter {e : Char} (h : letterEscape? e = some c) :
    readQuoted ('\\' :: e :: cs) = .ok (c :: found, rest) := by
  have hu : e ≠ 'u' := by
    rintro rfl
    cases h
  rw [readQuoted, h, hr]
  · rfl
  · exact hu

/-- A control character is found again from its two hexadecimal digits. -/
theorem readQuoted_control (h : c < ' ') :
    readQuoted ('\\' :: 'u' :: '0' :: '0' :: Nat.digitChar (c.toNat / 16) ::
      Nat.digitChar (c.toNat % 16) :: cs) = .ok (c :: found, rest) := by
  have hc : c.toNat < 32 := h
  have hexUnit : ∀ n < 32,
      hexUnit? '0' '0' (Nat.digitChar (n / 16)) (Nat.digitChar (n % 16)) = some n := by decide
  rw [readQuoted, hexUnit c.toNat hc]
  simp only
  rw [if_pos (by omega), Char.ofNat_toNat, hr]
  rfl

theorem readQuoted_plain (hq : c ≠ '"') (hb : c ≠ '\\') (h : ¬ c < ' ') :
    readQuoted (c :: cs) = .ok (c :: found, rest) := by
  rw [readQuoted, if_neg h, hr]
  · rfl
  · exact hq
  · exact hb

/-- A printed character is read as that character, whatever follows it. -/
theorem readQuoted_escape (c : Char) :
    readQuoted (escape c ++ cs) = .ok (c :: found, rest) := by
  unfold escape
  split_ifs with h₁ h₂ h₃ h₄ h₅ h₆ h₇ h₈
  · subst h₁
    exact readQuoted_letter hr rfl
  · subst h₂
    exact readQuoted_letter hr rfl
  · subst h₃
    exact readQuoted_letter hr rfl
  · subst h₄
    exact readQuoted_letter hr rfl
  · subst h₅
    exact readQuoted_letter hr rfl
  · subst h₆
    exact readQuoted_letter hr rfl
  · subst h₇
    exact readQuoted_letter hr rfl
  · exact readQuoted_control hr h₈
  · exact readQuoted_plain hr h₁ h₂ h₈

end Characters

theorem readQuoted_flatMap_escape (cs rest : List Char) :
    readQuoted (cs.flatMap escape ++ '"' :: rest) = .ok (cs, rest) := by
  induction cs with
  | nil => rw [List.flatMap_nil, List.nil_append, readQuoted]
  | cons c cs ih =>
    rw [List.flatMap_cons, List.append_assoc]
    exact readQuoted_escape ih c

end AccessRules.Json
