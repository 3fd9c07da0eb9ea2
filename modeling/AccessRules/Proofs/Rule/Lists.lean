import AccessRules.Proofs.Equality
import AccessRules.Proofs.Rule.Decoding
import Mathlib.Data.List.Forall2

/-! The rule text of a list of literals determines the list. -/
namespace AccessRules.Literal

/-- The same string, or the same number. -/
inductive Same : Literal → Literal → Prop
  | string (s : String) : Same (.string s) (.string s)
  | number {x y : Double} (h : (x == y) = true) : Same (.number x) (.number y)

theorem same_iff (a b : Literal) :
    Same a b ↔ (∀ x ∈ a.numbers, x ≠ .nan) ∧ a.mapNumbers .settled = b.mapNumbers .settled := by
  rw [← Literal.beq_iff]
  constructor
  · rintro (s | h)
    · exact beq_self_eq_true s
    · exact h
  · intro h
    match a, b with
    | .string s, .string t =>
      obtain rfl : s = t := beq_iff_eq.mp h
      exact .string s
    | .number x, .number y => exact .number h
    | .string s, .number y => cases h
    | .number x, .string t => cases h

theorem forall₂_same_iff (xs ys : List Literal) :
    List.Forall₂ Same xs ys ↔
      (∀ x ∈ xs.flatMap numbers, x ≠ .nan) ∧
        xs.map (mapNumbers .settled) = ys.map (mapNumbers .settled) := by
  induction xs generalizing ys with
  | nil => cases ys <;> simp
  | cons a xs ih =>
    cases ys with
    | nil => simp
    | cons b ys =>
      rw [List.forall₂_cons, same_iff, ih, List.flatMap_cons, List.forall_mem_append, List.map_cons,
        List.map_cons, List.cons.injEq, and_and_and_comm]

/-- Lists of literals have the same rule text exactly if they agree position by position. Strings may
hold anything but a quote, and the sign of a zero is not shown. -/
theorem listRule_eq_iff_same {xs ys : List Literal} {s t : String}
    (hx : ∀ u, .string u ∈ xs → '"' ∉ u.toList) (hy : ∀ u, .string u ∈ ys → '"' ∉ u.toList)
    (hs : listRule xs = .ok s) (ht : listRule ys = .ok t) :
    s = t ↔ List.Forall₂ Same xs ys := by
  have hplain {items : List Literal} (h : ∀ u, .string u ∈ items → '"' ∉ u.toList) :
      ∀ v ∈ items.map toScalar, v.Plain := by
    rw [List.forall_mem_map]
    intro l hl
    cases l with
    | string u => exact h u hl
    | number x => trivial
  obtain ⟨hfx, rfl⟩ := (listRule_eq_ok_iff xs s).mp hs
  obtain ⟨hfy, rfl⟩ := (listRule_eq_ok_iff ys t).mp ht
  have hnan : ∀ x ∈ xs.flatMap numbers, x ≠ .nan := by
    rintro x hm rfl
    exact hfx _ hm
  rw [forall₂_same_iff, and_iff_right hnan, ← listText_settled xs, ← listText_settled ys]
  constructor
  · exact decodes_listText.eq_of_text_eq trivial (legible_settled (hplain hx) hfx)
      (legible_settled (hplain hy) hfy)
  · intro h
    rw [h]

/-- A string that looks like the end of a list, a zero of either sign and the empty string. -/
theorem listRule_eq_iff_same_deceptive :
    let xs : List Literal := [.string "1\\,2],[", .number (.finite ⟨true, .zero⟩), .string ""]
    let ys : List Literal := [.string "1\\,2],[", .number (.finite ⟨false, .zero⟩), .string ""]
    listRule xs = .ok "[\"1\\,2],[\",0,\"\"]" ∧ listRule ys = .ok "[\"1\\,2],[\",0,\"\"]" ∧
      List.Forall₂ Same xs ys := by
  intro xs ys
  have hxs : listRule xs = .ok "[\"1\\,2],[\",0,\"\"]" := by rfl
  have hys : listRule ys = .ok "[\"1\\,2],[\",0,\"\"]" := by rfl
  have hx : ∀ u, .string u ∈ xs → '"' ∉ u.toList := by
    intro u hu
    have h : u = "1\\,2],[" ∨ u = "" := by simpa [xs] using hu
    rcases h with rfl | rfl <;> decide
  have hy : ∀ u, .string u ∈ ys → '"' ∉ u.toList := by
    intro u hu
    have h : u = "1\\,2],[" ∨ u = "" := by simpa [ys] using hu
    rcases h with rfl | rfl <;> decide
  exact ⟨hxs, hys, (listRule_eq_iff_same hx hy hxs hys).mp rfl⟩

end AccessRules.Literal
