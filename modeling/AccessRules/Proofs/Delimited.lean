/-! Texts that show by themselves where they end. -/
namespace AccessRules

/-- The text does not start with a character of the class. -/
def StopsRun (p : Char → Bool) : List Char → Prop
  | [] => True
  | c :: _ => p c = false

/-- A run of characters of one class ends where the next character is of no such class. -/
theorem run_cancel {p : Char → Bool} {a b r u : List Char} (ha : ∀ c ∈ a, p c = true)
    (hb : ∀ c ∈ b, p c = true) (hr : StopsRun p r) (hu : StopsRun p u) (h : a ++ r = b ++ u) :
    a = b ∧ r = u := by
  induction a generalizing b with
  | nil =>
    cases b with
    | nil => exact ⟨rfl, h⟩
    | cons d b =>
      subst h
      have hd := hb d List.mem_cons_self
      exact absurd hd (Bool.eq_false_iff.mp hr)
  | cons c a ih =>
    rw [List.forall_mem_cons] at ha
    cases b with
    | nil =>
      subst h
      exact absurd ha.1 (Bool.eq_false_iff.mp hu)
    | cons d b =>
      rw [List.forall_mem_cons] at hb
      obtain ⟨rfl, ht⟩ := List.cons.inj h
      obtain ⟨rfl, hru⟩ := ih ha.2 hb.2 ht
      exact ⟨rfl, hru⟩

/-- A text without the mark ends at the first mark. -/
theorem mark_cancel {m : Char} {a b r u : List Char} (ha : m ∉ a) (hb : m ∉ b)
    (h : a ++ m :: r = b ++ m :: u) : a = b ∧ r = u := by
  have hne {l : List Char} (hl : m ∉ l) : ∀ c ∈ l, (c != m) = true := by
    intro c hc
    exact bne_iff_ne.mpr fun hm => hl (hm ▸ hc)
  have hm (l : List Char) : StopsRun (· != m) (m :: l) := by
    change (m != m) = false
    exact bne_self_eq_false m
  obtain ⟨rfl, ht⟩ := run_cancel (hne ha) (hne hb) (hm r) (hm u) h
  exact ⟨rfl, (List.cons.inj ht).2⟩

def first (s : String) : Option Char := s.toList.head?

theorem first_append {s : String} {c : Char} (h : first s = some c) (t : String) :
    first (s ++ t) = some c := by
  rw [first, String.toList_append, List.head?_append, ← first, h]
  rfl

theorem ne_of_first {s t : String} {c d : Char} (hs : first s = some c) (ht : first t = some d)
    (h : c ≠ d) : s ≠ t := by
  rintro rfl
  rw [hs] at ht
  exact h (Option.some.inj ht)

def Stops (p : Char → Bool) (s : String) : Prop := StopsRun p s.toList

theorem stops_iff {p : Char → Bool} {s : String} :
    Stops p s ↔ ∀ c, first s = some c → p c = false := by
  unfold Stops first
  cases s.toList <;> simp [StopsRun]

theorem stops_of_first {p : Char → Bool} {s : String} {c : Char} (hs : first s = some c)
    (hc : p c = false) : Stops p s := by
  rw [stops_iff]
  intro d hd
  rw [hs] at hd
  obtain rfl := Option.some.inj hd
  exact hc

theorem stops_append {p : Char → Bool} {s : String} {c : Char} (hs : first s = some c)
    (hc : p c = false) (t : String) : Stops p (s ++ t) :=
  stops_of_first (first_append hs t) hc

theorem stops_empty (p : Char → Bool) : Stops p "" := trivial

/-- Values with the property `P` are read back from their text, if it goes on as `ends` says. -/
def Decodes {α : Type} (text : α → String) (P : α → Prop) (ends : String → Prop) : Prop :=
  ∀ ⦃a b : α⦄ ⦃r u : String⦄, P a → P b → ends r → ends u → text a ++ r = text b ++ u →
    a = b ∧ r = u

namespace Decodes

variable {α : Type} {text : α → String} {P : α → Prop} {ends : String → Prop}

theorem run (p : Char → Bool) :
    Decodes (fun s : String => s) (fun s => ∀ c ∈ s.toList, p c = true) (Stops p) := by
  intro a b r u ha hb hr hu h
  have hl := congrArg String.toList h
  rw [String.toList_append, String.toList_append] at hl
  obtain ⟨hab, hru⟩ := run_cancel ha hb hr hu hl
  exact ⟨String.toList_inj.mp hab, String.toList_inj.mp hru⟩

/-- A text of characters of one class, that determines the value. -/
theorem of_run {p : Char → Bool} (hp : ∀ a, P a → ∀ c ∈ (text a).toList, p c = true)
    (hinj : ∀ a b, P a → P b → text a = text b → a = b) : Decodes text P (Stops p) := by
  intro a b r u ha hb hr hu h
  obtain ⟨hab, hru⟩ := run p (hp a ha) (hp b hb) hr hu h
  exact ⟨hinj a b ha hb hab, hru⟩

theorem eq_of_text_eq (hd : Decodes text P ends) (he : ends "") {a b : α} (ha : P a) (hb : P b)
    (h : text a = text b) : a = b := by
  refine (hd ha hb he he ?_).1
  rw [h]

section Lists

/-- Each value after a separator, then the rest. -/
def followed (text : α → String) (sep : String) (xs : List α) (r : String) : String :=
  xs.foldr (fun x r => sep ++ (text x ++ r)) r

theorem intercalate_append (text : α → String) (sep : String) (x : α) (xs : List α) (r : String) :
    sep.intercalate ((x :: xs).map text) ++ r = text x ++ followed text sep xs r := by
  induction xs generalizing x with
  | nil =>
    rw [List.map_cons, List.map_nil, String.intercalate_singleton]
    rfl
  | cons y ys ih =>
    have hs := ih y
    rw [List.map_cons] at hs
    rw [List.map_cons, List.map_cons, String.intercalate_cons_cons, String.append_assoc,
      String.append_assoc, hs]
    rfl

variable {sep stop : String} (hd : Decodes text P ends) (hsep : ∀ r, ends (sep ++ r))
  (hstop : ∀ r, ends (stop ++ r)) (hne : ∀ r u, sep ++ r ≠ stop ++ u)

include hsep hstop in
theorem ends_followed (xs : List α) (r : String) : ends (followed text sep xs (stop ++ r)) := by
  cases xs with
  | nil => exact hstop r
  | cons x xs => exact hsep _

include hd hsep hstop hne in
theorem followed_cancel {xs ys : List α} {r u : String} (hx : ∀ x ∈ xs, P x) (hy : ∀ y ∈ ys, P y)
    (h : followed text sep xs (stop ++ r) = followed text sep ys (stop ++ u)) :
    xs = ys ∧ r = u := by
  induction xs generalizing ys with
  | nil =>
    cases ys with
    | nil => exact ⟨rfl, (String.append_right_inj stop).mp h⟩
    | cons y ys => exact absurd h.symm (hne _ _)
  | cons x xs ih =>
    rw [List.forall_mem_cons] at hx
    cases ys with
    | nil => exact absurd h (hne _ _)
    | cons y ys =>
      rw [List.forall_mem_cons] at hy
      obtain ⟨rfl, ht⟩ := hd hx.1 hy.1 (ends_followed hsep hstop xs r)
        (ends_followed hsep hstop ys u) ((String.append_right_inj sep).mp h)
      obtain ⟨rfl, hru⟩ := ih hx.2 hy.2 ht
      exact ⟨rfl, hru⟩

include hd hsep hstop hne in
/-- A list between separators that ends at a mark, which starts no value. -/
theorem list (hstart : ∀ a r u, P a → text a ++ r ≠ stop ++ u) :
    Decodes (fun xs : List α => sep.intercalate (xs.map text) ++ stop) (fun xs => ∀ x ∈ xs, P x)
      fun _ => True := by
  intro xs ys r u hx hy _ _ h
  simp only [String.append_assoc] at h
  cases xs with
  | nil =>
    cases ys with
    | nil => exact ⟨rfl, by simpa using h⟩
    | cons y ys =>
      rw [intercalate_append] at h
      exact absurd (by simpa using h.symm) (hstart y _ r (hy y List.mem_cons_self))
  | cons x xs =>
    rw [intercalate_append] at h
    rw [List.forall_mem_cons] at hx
    cases ys with
    | nil => exact absurd (by simpa using h) (hstart x _ u hx.1)
    | cons y ys =>
      rw [intercalate_append] at h
      rw [List.forall_mem_cons] at hy
      obtain ⟨rfl, ht⟩ := hd hx.1 hy.1 (ends_followed hsep hstop xs r)
        (ends_followed hsep hstop ys u) h
      obtain ⟨rfl, hru⟩ := followed_cancel hd hsep hstop hne hx.2 hy.2 ht
      exact ⟨rfl, hru⟩

end Lists

end Decodes

end AccessRules
