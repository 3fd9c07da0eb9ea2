import AccessRules.Json.Reader
import AccessRules.Proofs.Outcome

/-! Objects with their entries sorted by key, as every object has them that is read from text. -/
namespace AccessRules.Json

/-- The entries are sorted by key, and no key is repeated. -/
def Increasing (entries : List (String × Json)) : Prop :=
  entries.Pairwise fun d e => d.1 < e.1

/-- The entries of every object in the value are sorted by key, and no key is repeated. -/
inductive Sorted : Json → Prop
  | null : Sorted .null
  | bool (b : Bool) : Sorted (.bool b)
  | number (n : Number) : Sorted (.number n)
  | string (s : String) : Sorted (.string s)
  | array {items : List Json} (h : ∀ v ∈ items, Sorted v) : Sorted (.array items)
  | object {entries : List (String × Json)} (hi : Increasing entries)
      (h : ∀ e ∈ entries, Sorted e.2) : Sorted (.object entries)

@[simp] theorem sorted_number (n : Number) : Sorted (.number n) := .number n

@[simp] theorem sorted_string (s : String) : Sorted (.string s) := .string s

@[simp] theorem sorted_array_iff (items : List Json) :
    Sorted (.array items) ↔ ∀ v ∈ items, v.Sorted := by
  constructor
  · intro h
    cases h with
    | array h => exact h
  · exact .array

section Entries

variable {key : String} {v : Json} {entries : List (String × Json)}

theorem mem_setEntry {e : String × Json} (h : e ∈ setEntry key v entries) :
    e = (key, v) ∨ e ∈ entries := by
  induction entries with
  | nil => simpa [setEntry] using h
  | cons d rest ih =>
    rw [setEntry] at h
    split at h
    · simpa using h
    · split at h
      · rcases List.mem_cons.mp h with h | h
        · exact Or.inl h
        · exact Or.inr (List.mem_cons_of_mem d h)
      · rcases List.mem_cons.mp h with h | h
        · exact Or.inr (h ▸ List.mem_cons_self)
        · exact (ih h).imp_right (List.mem_cons_of_mem d)

theorem increasing_setEntry (h : Increasing entries) : Increasing (setEntry key v entries) := by
  induction entries with
  | nil => exact List.pairwise_singleton _ _
  | cons d rest ih =>
    obtain ⟨hd, hr⟩ := List.pairwise_cons.mp h
    rw [setEntry]
    split
    next hlt =>
      have hk : ∀ e ∈ d :: rest, key < e.1 := by
        intro e he
        rcases List.mem_cons.mp he with rfl | he
        · exact hlt
        · exact String.lt_trans hlt (hd e he)
      exact List.pairwise_cons.mpr ⟨hk, h⟩
    next hge =>
      split
      next heq =>
        subst heq
        exact List.pairwise_cons.mpr ⟨hd, hr⟩
      next hne =>
        have hlt : d.1 < key := by
          apply String.not_le.mp
          intro hle
          exact hne (String.le_antisymm hle (String.not_lt.mp hge))
        refine List.pairwise_cons.mpr ⟨?_, ih hr⟩
        intro e he
        rcases mem_setEntry he with rfl | he
        · exact hlt
        · exact hd e he

/-- A key above all others is set at the end. -/
theorem setEntry_of_lt (h : ∀ e ∈ entries, e.1 < key) :
    setEntry key v entries = entries ++ [(key, v)] := by
  induction entries with
  | nil => rfl
  | cons d rest ih =>
    obtain ⟨hd, hr⟩ := List.forall_mem_cons.mp h
    have hge : ¬ key < d.1 := fun hlt => String.lt_irrefl _ (String.lt_trans hd hlt)
    have hne : ¬ key = d.1 := by
      rintro rfl
      exact String.lt_irrefl _ hd
    rw [setEntry, if_neg hge, if_neg hne, ih hr, List.cons_append]

end Entries

/-- Sorted entries are set one after the other. -/
theorem foldl_setEntry (sorted entries : List (String × Json))
    (h : Increasing (sorted ++ entries)) :
    entries.foldl (fun sorted entry => setEntry entry.1 entry.2 sorted) sorted =
      sorted ++ entries := by
  induction entries generalizing sorted with
  | nil => simp
  | cons e entries ih =>
    have hlt : ∀ d ∈ sorted, d.1 < e.1 := by
      intro d hd
      exact (List.pairwise_append.mp h).2.2 d hd e List.mem_cons_self
    have happ : sorted ++ e :: entries = sorted ++ [e] ++ entries := by simp
    rw [happ] at h ⊢
    rw [List.foldl_cons, setEntry_of_lt hlt]
    exact ih _ h

theorem ofEntries_of_increasing {entries : List (String × Json)} (h : Increasing entries) :
    ofEntries entries = .object entries := by
  rw [ofEntries, foldl_setEntry [] entries h, List.nil_append]

theorem sorted_ofEntries {entries : List (String × Json)} (h : ∀ e ∈ entries, Sorted e.2) :
    (ofEntries entries).Sorted := by
  have hfold (sorted : List (String × Json)) (hi : Increasing sorted)
      (hs : ∀ e ∈ sorted, Sorted e.2) :
      Sorted (.object (entries.foldl (fun sorted entry => setEntry entry.1 entry.2 sorted) sorted)) := by
    induction entries generalizing sorted with
    | nil => exact .object hi hs
    | cons d entries ih =>
      obtain ⟨hd, he⟩ := List.forall_mem_cons.mp h
      refine ih he _ (increasing_setEntry hi) ?_
      intro e hm
      rcases mem_setEntry hm with rfl | hm
      · exact hd
      · exact hs e hm
  exact hfold [] List.Pairwise.nil (by simp)

section Reading

variable {value : List Char → Except Fault (Json × List Char)} {P : Json → Prop}

theorem forall_of_readItems (hv : ∀ {cs v rest}, value cs = .ok (v, rest) → P v) {bound : Nat}
    {cs rest : List Char} {vs : List Json} (h : readItems value bound cs = .ok (vs, rest)) :
    ∀ v ∈ vs, P v := by
  induction bound generalizing cs vs with
  | zero => cases h
  | succ bound ih =>
    rw [readItems] at h
    split at h
    next => cases h
    next =>
      cases h
      simp
    next =>
      split at h
      next => cases h
      next => cases h
      next =>
        obtain ⟨⟨v, cs₁⟩, h₁, h⟩ := Outcome.bind_eq_ok_iff.mp h
        obtain ⟨⟨ws, cs₂⟩, h₂, h⟩ := Outcome.bind_eq_ok_iff.mp h
        cases h
        exact List.forall_mem_cons.mpr ⟨hv h₁, ih h₂⟩
    next => cases h

theorem forall_of_readArray (hv : ∀ {cs v rest}, value cs = .ok (v, rest) → P v)
    {cs rest : List Char} {vs : List Json} (h : readArray value cs = .ok (vs, rest)) :
    ∀ v ∈ vs, P v := by
  unfold readArray at h
  split at h
  next => cases h
  next =>
    cases h
    simp
  next =>
    obtain ⟨⟨v, cs₁⟩, h₁, h⟩ := Outcome.bind_eq_ok_iff.mp h
    obtain ⟨⟨ws, cs₂⟩, h₂, h⟩ := Outcome.bind_eq_ok_iff.mp h
    cases h
    exact List.forall_mem_cons.mpr ⟨hv h₁, forall_of_readItems hv h₂⟩

theorem of_readEntry (hv : ∀ {cs v rest}, value cs = .ok (v, rest) → P v) {cs rest : List Char}
    {e : String × Json} (h : readEntry value cs = .ok (e, rest)) : P e.2 := by
  obtain ⟨⟨key, cs₁⟩, -, h⟩ := Outcome.bind_eq_ok_iff.mp h
  dsimp only at h
  split at h
  next =>
    obtain ⟨⟨v, cs₂⟩, h₂, h⟩ := Outcome.bind_eq_ok_iff.mp h
    cases h
    exact hv h₂
  next => cases h
  next => cases h

theorem forall_of_readEntries (hv : ∀ {cs v rest}, value cs = .ok (v, rest) → P v) {bound : Nat}
    {cs rest : List Char} {es : List (String × Json)}
    (h : readEntries value bound cs = .ok (es, rest)) : ∀ e ∈ es, P e.2 := by
  induction bound generalizing cs es with
  | zero => cases h
  | succ bound ih =>
    rw [readEntries] at h
    split at h
    next => cases h
    next =>
      cases h
      simp
    next =>
      split at h
      next => cases h
      next =>
        obtain ⟨⟨e, cs₁⟩, h₁, h⟩ := Outcome.bind_eq_ok_iff.mp h
        obtain ⟨⟨ds, cs₂⟩, h₂, h⟩ := Outcome.bind_eq_ok_iff.mp h
        cases h
        exact List.forall_mem_cons.mpr ⟨of_readEntry hv h₁, ih h₂⟩
      next => cases h
      next => cases h
    next => cases h

theorem forall_of_readObject (hv : ∀ {cs v rest}, value cs = .ok (v, rest) → P v)
    {cs rest : List Char} {es : List (String × Json)} (h : readObject value cs = .ok (es, rest)) :
    ∀ e ∈ es, P e.2 := by
  unfold readObject at h
  split at h
  next => cases h
  next =>
    cases h
    simp
  next =>
    obtain ⟨⟨e, cs₁⟩, h₁, h⟩ := Outcome.bind_eq_ok_iff.mp h
    obtain ⟨⟨ds, cs₂⟩, h₂, h⟩ := Outcome.bind_eq_ok_iff.mp h
    cases h
    exact List.forall_mem_cons.mpr ⟨of_readEntry hv h₁, forall_of_readEntries hv h₂⟩
  next => cases h

end Reading

/-- What is read with the given number of levels left: a leaf, or a list or an object of values that
are read one level down. -/
inductive ReadForm (depth : Nat) (rest : List Char) : Json → Prop
  | null : ReadForm depth rest .null
  | bool (b : Bool) : ReadForm depth rest (.bool b)
  | string (s : String) : ReadForm depth rest (.string s)
  | number (n : Number) : ReadForm depth rest (.number n)
  | array {d : Nat} {tail : List Char} {items : List Json} (hd : depth = d + 1)
      (h : readArray (readValue d) tail = .ok (items, rest)) : ReadForm depth rest (.array items)
  | object {d : Nat} {tail : List Char} {entries : List (String × Json)} (hd : depth = d + 1)
      (h : readObject (readValue d) tail = .ok (entries, rest)) :
      ReadForm depth rest (ofEntries entries)

theorem readForm_of_readValue {depth : Nat} {cs rest : List Char} {v : Json}
    (h : readValue depth cs = .ok (v, rest)) : ReadForm depth rest v := by
  unfold readValue at h
  split at h
  next => cases h
  next c tail _ =>
    -- The first character decides; the cases come in the order of the reader's tests.
    split at h
    next =>
      obtain ⟨_, -, h⟩ := Outcome.bind_eq_ok_iff.mp h
      cases h
      exact .null
    next =>
    split at h
    next =>
      obtain ⟨_, -, h⟩ := Outcome.bind_eq_ok_iff.mp h
      cases h
      exact .bool true
    next =>
    split at h
    next =>
      obtain ⟨_, -, h⟩ := Outcome.bind_eq_ok_iff.mp h
      cases h
      exact .bool false
    next =>
    split at h
    next =>
      obtain ⟨⟨found, _⟩, -, h⟩ := Outcome.bind_eq_ok_iff.mp h
      cases h
      exact .string _
    next =>
    split at h
    next =>
      obtain ⟨⟨n, _⟩, -, h⟩ := Outcome.bind_eq_ok_iff.mp h
      cases h
      exact .number n
    next =>
    split at h
    next =>
      split at h
      next => cases h
      next d =>
      split at h
      next =>
        obtain ⟨⟨items, _⟩, hr, h⟩ := Outcome.bind_eq_ok_iff.mp h
        cases h
        exact .array rfl hr
      next =>
        obtain ⟨⟨entries, _⟩, hr, h⟩ := Outcome.bind_eq_ok_iff.mp h
        cases h
        exact .object rfl hr
    next => cases h

theorem sorted_of_readValue {depth : Nat} {cs rest : List Char} {v : Json}
    (h : readValue depth cs = .ok (v, rest)) : v.Sorted := by
  cases readForm_of_readValue h with
  | null => exact .null
  | bool b => exact .bool b
  | string s => exact .string s
  | number n => exact .number n
  | array hd hr => exact .array (forall_of_readArray (fun hv => sorted_of_readValue hv) hr)
  | object hd hr => exact sorted_ofEntries (forall_of_readObject (fun hv => sorted_of_readValue hv) hr)
termination_by depth
decreasing_by all_goals omega

/-- Every value that is read from text is sorted. -/
theorem sorted_of_read {text : String} {v : Json} (h : read text = .ok v) : v.Sorted := by
  obtain ⟨⟨w, rest⟩, hf, h⟩ := Outcome.bind_eq_ok_iff.mp h
  obtain ⟨-, -, h⟩ := Outcome.bind_eq_ok_iff.mp h
  cases h
  exact sorted_of_readValue (Outcome.mapError_eq_ok_iff.mp hf)

end AccessRules.Json
