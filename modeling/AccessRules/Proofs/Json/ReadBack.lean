import AccessRules.Proofs.Json.Doubles
import AccessRules.Proofs.Json.Quoted
import AccessRules.Proofs.Json.Sorted

/-! Compact text is read as the value it was printed from, up to the nesting limit and to the doubles
that their decimals are read as. -/
namespace AccessRules.Json

mutual

def nesting : Json → Nat
  | .array items => itemsNesting items + 1
  | .object entries => entriesNesting entries + 1
  | _ => 0

def itemsNesting : List Json → Nat
  | [] => 0
  | v :: vs => max v.nesting (itemsNesting vs)

def entriesNesting : List (String × Json) → Nat
  | [] => 0
  | (_, v) :: es => max v.nesting (entriesNesting es)

end

/-- Every object in the value is sorted, and every number is read back from its own text. -/
inductive Printable : Json → Prop
  | null : Printable .null
  | bool (b : Bool) : Printable (.bool b)
  | number {n : Number} (h : n.ReadsBack) : Printable (.number n)
  | string (s : String) : Printable (.string s)
  | array {items : List Json} (h : ∀ v ∈ items, Printable v) : Printable (.array items)
  | object {entries : List (String × Json)} (hi : Increasing entries)
      (h : ∀ e ∈ entries, Printable e.2) : Printable (.object entries)

@[simp] theorem printable_string (s : String) : Printable (.string s) := .string s

@[simp] theorem printable_array_iff (items : List Json) :
    Printable (.array items) ↔ ∀ v ∈ items, v.Printable := by
  constructor
  · intro h
    cases h with
    | array h => exact h
  · exact .array

section Reparsed

mutual

/-- The value that is read from the text of a value. -/
def reparsed : Json → Json
  | .number n => .number n.reparsed
  | .array items => .array (reparsedItems items)
  | .object entries => .object (reparsedEntries entries)
  | v => v

def reparsedItems : List Json → List Json
  | [] => []
  | v :: vs => v.reparsed :: reparsedItems vs

def reparsedEntries : List (String × Json) → List (String × Json)
  | [] => []
  | (key, v) :: entries => (key, v.reparsed) :: reparsedEntries entries

end

theorem reparsedItems_eq_map (vs : List Json) : reparsedItems vs = vs.map reparsed := by
  induction vs with
  | nil => rfl
  | cons v vs ih => rw [reparsedItems, ih, List.map_cons]

theorem reparsedEntries_eq_map (es : List (String × Json)) :
    reparsedEntries es = es.map fun e => (e.1, e.2.reparsed) := by
  induction es with
  | nil => rfl
  | cons e es ih => rw [reparsedEntries, ih, List.map_cons]

theorem increasing_reparsedEntries {es : List (String × Json)} (h : Increasing es) :
    Increasing (reparsedEntries es) := by
  rw [reparsedEntries_eq_map, Increasing, List.pairwise_map]
  exact h

theorem Number.ReadsBack.reparsed_eq {n : Number} (h : n.ReadsBack) : n.reparsed = n := by
  have hr := readNumber_chars n [] trivial
  rw [h [] trivial] at hr
  exact (Prod.mk.inj (Except.ok.inj hr)).1.symm

theorem Printable.sorted {v : Json} (hv : v.Printable) : v.Sorted := by
  induction hv with
  | null => exact .null
  | bool b => exact .bool b
  | number => exact .number _
  | string s => exact .string s
  | array _ ih => exact .array ih
  | object hi _ ih => exact .object hi ih

theorem Printable.reparsed_eq {v : Json} (hv : v.Printable) : v.reparsed = v := by
  induction hv with
  | null => rfl
  | bool b => rfl
  | number hn => rw [reparsed, hn.reparsed_eq]
  | string s => rfl
  | array _ ih =>
    rw [reparsed, reparsedItems_eq_map, List.map_congr_left ih, List.map_id']
  | object _ _ ih =>
    have he := List.map_congr_left fun e he => congrArg (Prod.mk e.1) (ih e he)
    rw [reparsed, reparsedEntries_eq_map, he, List.map_id']

end Reparsed

section Limit

variable {α β : Type} {depth m n : Nat}

/-- What is nested no deeper than the limit has the given outcome, and anything deeper is refused. -/
def Within (depth nesting : Nat) (outcome : Except Fault α) (a : α) : Prop :=
  (nesting ≤ depth → outcome = .ok a) ∧
    (depth < nesting → ∃ unread, outcome = .error ⟨.tooDeep, unread⟩)

theorem Within.of_eq {outcome : Except Fault α} {a : α} (h : outcome = .ok a) :
    Within depth 0 outcome a :=
  ⟨fun _ => h, fun hlt => absurd hlt (Nat.not_lt_zero depth)⟩

theorem Within.bind {x : Except Fault α} {f : α → Except Fault β} {a : α} {b : β}
    (hx : Within depth m x a) (hf : Within depth n (f a) b) :
    Within depth (max m n) (x >>= f) b := by
  constructor
  · intro hle
    rw [hx.1 (by omega), Outcome.ok_bind, hf.1 (by omega)]
  · intro hlt
    by_cases hm : m ≤ depth
    · obtain ⟨unread, hu⟩ := hf.2 (by omega)
      exact ⟨unread, by rw [hx.1 hm, Outcome.ok_bind, hu]⟩
    · obtain ⟨unread, hu⟩ := hx.2 (by omega)
      exact ⟨unread, by rw [hu, Outcome.error_bind]⟩

theorem Within.map {x : Except Fault α} {f : α → Except Fault β} {a : α} {b : β}
    (hx : Within depth m x a) (hf : f a = .ok b) : Within depth m (x >>= f) b := by
  have h := hx.bind (n := 0) (.of_eq hf)
  rwa [Nat.max_zero] at h

end Limit

section Steps

variable {value : List Char → Except Fault (Json × List Char)} {c : Char} {cs rest : List Char}

theorem skipBlanks_cons (h : isBlank c = false) : skipBlanks (c :: cs) = c :: cs := by
  rw [skipBlanks, List.dropWhile_cons, h]
  rfl

theorem readArray_of_skipBlanks {tail : List Char} (h : skipBlanks cs = c :: tail) (hc : c ≠ ']') :
    readArray value cs = (do
      let (v, cs) ← value (c :: tail)
      let (vs, cs) ← readItems value cs.length cs
      return (v :: vs, cs)) := by
  rw [readArray, h]
  split
  next heq => cases heq
  next heq => exact absurd (List.cons.inj heq).1 hc
  next => rfl

theorem readItems_of_skipBlanks (bound : Nat) {next tail : List Char}
    (hcomma : skipBlanks cs = ',' :: next) (h : skipBlanks next = c :: tail) (hc : c ≠ ']') :
    readItems value (bound + 1) cs = (do
      let (v, cs) ← value (c :: tail)
      let (vs, cs) ← readItems value bound cs
      return (v :: vs, cs)) := by
  rw [readItems, hcomma]
  simp only
  rw [h]
  split
  next heq => cases heq
  next heq => exact absurd (List.cons.inj heq).1 hc
  next => rfl

theorem readEntries_cons (bound : Nat) :
    readEntries value (bound + 1) (',' :: '"' :: cs) = (do
      let (e, cs) ← readEntry value cs
      let (es, cs) ← readEntries value bound cs
      return (e :: es, cs)) := rfl

theorem readObject_cons :
    readObject value ('"' :: cs) = (do
      let (e, cs) ← readEntry value cs
      let (es, cs) ← readEntries value cs.length cs
      return (e :: es, cs)) := rfl

/-- An entry is nested as deeply as its value. -/
theorem within_readEntry {depth n : Nat} {v : Json} (k : String)
    (h : Within depth n (value cs) (v, rest)) :
    Within depth n (readEntry value (k.toList.flatMap escape ++ '"' :: ':' :: cs))
      ((k, v), rest) := by
  rw [readEntry, readQuoted_flatMap_escape, Outcome.ok_bind]
  simp only [skipBlanks_cons (c := ':') rfl, String.ofList_toList]
  exact h.map rfl

end Steps

section Values

variable {depth n : Nat} {c : Char} {cs rest : List Char}

/-- What an opening bracket starts is read one level below it. -/
theorem within_bracket {α : Type} {make : α → Json} {a : α}
    (read : (List Char → Except Fault (Json × List Char)) → Except Fault (α × List Char))
    (hzero : readValue 0 (c :: cs) = .error (.onto .tooDeep (c :: cs)))
    (hsucc : ∀ depth, readValue (depth + 1) (c :: cs) =
      read (readValue depth) >>= fun found => .ok (make found.1, found.2))
    (h : ∀ depth, Within depth n (read (readValue depth)) (a, rest)) :
    Within depth (n + 1) (readValue depth (c :: cs)) (make a, rest) := by
  cases depth with
  | zero =>
    rw [hzero]
    exact ⟨fun hle => absurd hle (Nat.not_succ_le_zero n), fun _ => ⟨_, rfl⟩⟩
  | succ depth =>
    rw [hsucc]
    obtain ⟨hok, herr⟩ := (h depth).map (f := fun found => .ok (make found.1, found.2)) rfl
    exact ⟨fun hle => hok (by omega), fun hlt => herr (by omega)⟩

theorem within_array {items : List Json}
    (h : ∀ depth, Within depth n (readArray (readValue depth) cs) (items, rest)) :
    Within depth (n + 1) (readValue depth ('[' :: cs)) (.array items, rest) :=
  within_bracket (readArray · cs) (by rw [readValue]; rfl)
    (fun depth => by rw [readValue]; rfl) h

theorem within_object {entries : List (String × Json)} (hi : Increasing entries)
    (h : ∀ depth, Within depth n (readObject (readValue depth) cs) (entries, rest)) :
    Within depth (n + 1) (readValue depth ('\x7b' :: cs)) (.object entries, rest) := by
  rw [← ofEntries_of_increasing hi]
  exact within_bracket (readObject · cs) (by rw [readValue]; rfl)
    (fun depth => by rw [readValue]; rfl) h

theorem readValue_quote (depth : Nat) (s : String) (rest : List Char) :
    readValue depth (quote s ++ rest) = .ok (.string s, rest) := by
  have hq := readQuoted_flatMap_escape s.toList rest
  rw [quote, List.cons_append, List.append_assoc, List.singleton_append, readValue,
    skipBlanks_cons rfl]
  simp [hq]

/-- Every other value starts with another character than a number. -/
theorem ne_of_starts_number {d : Char} (hc : c = '-' ∨ c.isDigit = true) (hd : d ≠ '-')
    (hn : d.isDigit = false) : c ≠ d := by
  rintro rfl
  rcases hc with hc | hc
  · exact hd hc
  · rw [hn] at hc
    cases hc

theorem isBlank_of_starts_number (hc : c = '-' ∨ c.isDigit = true) : isBlank c = false := by
  have hs := ne_of_starts_number hc (d := ' ') (by decide) rfl
  have ht := ne_of_starts_number hc (d := '\t') (by decide) rfl
  have hn := ne_of_starts_number hc (d := '\n') (by decide) rfl
  have hr := ne_of_starts_number hc (d := '\r') (by decide) rfl
  simp [isBlank, hs, ht, hn, hr]

theorem readValue_of_starts_number (depth : Nat) (hc : c = '-' ∨ c.isDigit = true) :
    readValue depth (c :: cs) = (do
      let (n, cs) ← readNumber (c :: cs)
      return (.number n, cs)) := by
  have hb := isBlank_of_starts_number hc
  have h₁ := ne_of_starts_number hc (d := 'n') (by decide) rfl
  have h₂ := ne_of_starts_number hc (d := 't') (by decide) rfl
  have h₃ := ne_of_starts_number hc (d := 'f') (by decide) rfl
  have h₄ := ne_of_starts_number hc (d := '"') (by decide) rfl
  rw [readValue, skipBlanks_cons hb]
  simp only [h₁, h₂, h₃, h₄, hc, if_true, if_false]

theorem readValue_number (depth : Nat) (n : Number) (hr : StopsRun extendsNumeral rest) :
    readValue depth (n.chars ++ rest) = .ok (.number n.reparsed, rest) := by
  have h := readNumber_chars n rest hr
  obtain ⟨c, tail, htail, hc⟩ := exists_cons_of_readNumber h
  rw [htail] at h ⊢
  rw [readValue_of_starts_number depth hc, h]
  rfl

/-- A printed value starts with a character that is neither a blank nor a closing bracket. -/
theorem exists_chars_eq_cons (v : Json) :
    ∃ c cs, v.chars = c :: cs ∧ isBlank c = false ∧ c ≠ ']' := by
  cases v with
  | null => exact ⟨_, _, rfl, rfl, by decide⟩
  | bool b => cases b <;> exact ⟨_, _, rfl, rfl, by decide⟩
  | string s => exact ⟨_, _, rfl, rfl, by decide⟩
  | array items => cases items <;> exact ⟨_, _, rfl, rfl, by decide⟩
  | object entries => cases entries <;> exact ⟨_, _, rfl, rfl, by decide⟩
  | number n =>
    have h := readNumber_chars n [] trivial
    rw [List.append_nil] at h
    obtain ⟨c, tail, htail, hc⟩ := exists_cons_of_readNumber h
    exact ⟨c, tail, htail, isBlank_of_starts_number hc, ne_of_starts_number hc (by decide) rfl⟩

/-- Each further item takes up text, and so does the bracket behind them. -/
theorem length_lt_length_itemsChars (vs : List Json) (rest : List Char) :
    vs.length < (itemsChars vs ++ ']' :: rest).length := by
  induction vs with
  | nil => simp [itemsChars]
  | cons v vs ih =>
    simp only [itemsChars, List.cons_append, List.length_append, List.length_cons] at ih ⊢
    omega

theorem length_lt_length_entriesChars (es : List (String × Json)) (rest : List Char) :
    es.length < (entriesChars es ++ '\x7d' :: rest).length := by
  induction es with
  | nil => simp [entriesChars]
  | cons e es ih =>
    simp only [entriesChars, List.cons_append, List.length_append, List.length_cons] at ih ⊢
    omega

/-- A numeral ends where the next item starts, or the list ends. -/
theorem stopsRun_itemsChars (vs : List Json) (rest : List Char) :
    StopsRun extendsNumeral (itemsChars vs ++ ']' :: rest) := by
  cases vs <;> rfl

theorem stopsRun_entriesChars (es : List (String × Json)) (rest : List Char) :
    StopsRun extendsNumeral (entriesChars es ++ '\x7d' :: rest) := by
  cases es <;> rfl

end Values

mutual

/-- A printed value is read from whatever it stands in front of, with any number of levels left, or is
refused for its nesting. -/
theorem within_readValue {v : Json} (h : v.Sorted) (depth : Nat) (rest : List Char)
    (hr : StopsRun extendsNumeral rest) :
    Within depth v.nesting (readValue depth (v.chars ++ rest)) (v.reparsed, rest) := by
  match v, h with
  | .null, _ => exact .of_eq (by rw [readValue]; rfl)
  | .bool true, _ => exact .of_eq (by rw [readValue]; rfl)
  | .bool false, _ => exact .of_eq (by rw [readValue]; rfl)
  | .string s, _ => exact .of_eq (readValue_quote depth s rest)
  | .number n, _ => exact .of_eq (readValue_number depth n hr)
  | .array [], _ =>
    rw [chars]
    exact within_array fun depth => .of_eq rfl
  | .array (v :: vs), .array h =>
    -- The first item follows the bracket directly, and the others are read behind their commas.
    obtain ⟨hv, hvs⟩ := List.forall_mem_cons.mp h
    obtain ⟨c, cs, hc, hblank, hclose⟩ := v.exists_chars_eq_cons
    rw [chars, List.cons_append, List.append_assoc, List.append_assoc, List.singleton_append]
    refine within_array fun depth => ?_
    have h₁ := within_readValue hv depth _ (stopsRun_itemsChars vs rest)
    have h₂ := within_readItems hvs depth (length_lt_length_itemsChars vs rest) rest
    rw [hc, List.cons_append] at h₁ ⊢
    rw [readArray_of_skipBlanks (skipBlanks_cons hblank) hclose]
    exact h₁.bind (h₂.map rfl)
  | .object [], _ =>
    rw [chars]
    exact within_object .nil fun depth => .of_eq rfl
  | .object ((k, v) :: es), .object hi h =>
    obtain ⟨hv, hes⟩ := List.forall_mem_cons.mp h
    rw [chars, List.cons_append, quote]
    simp only [List.cons_append, List.append_assoc, List.nil_append]
    refine within_object (increasing_reparsedEntries hi) fun depth => ?_
    have h₁ := within_readValue hv depth _ (stopsRun_entriesChars es rest)
    have h₂ := within_readEntries hes depth (length_lt_length_entriesChars es rest) rest
    rw [readObject_cons]
    exact (within_readEntry k h₁).bind (h₂.map rfl)

theorem within_readItems {vs : List Json} (h : ∀ v ∈ vs, v.Sorted) (depth : Nat) {bound : Nat}
    (hb : vs.length < bound) (rest : List Char) :
    Within depth (itemsNesting vs)
      (readItems (readValue depth) bound (itemsChars vs ++ ']' :: rest))
      (reparsedItems vs, rest) := by
  match vs, bound with
  | [], bound + 1 => exact .of_eq rfl
  | v :: vs, bound + 1 =>
    obtain ⟨hv, hvs⟩ := List.forall_mem_cons.mp h
    obtain ⟨c, cs, hc, hblank, hclose⟩ := v.exists_chars_eq_cons
    have h₁ := within_readValue hv depth _ (stopsRun_itemsChars vs rest)
    have h₂ := within_readItems hvs depth (Nat.lt_of_succ_lt_succ hb) rest
    rw [itemsChars, List.cons_append, List.append_assoc]
    rw [hc, List.cons_append] at h₁ ⊢
    rw [readItems_of_skipBlanks bound (skipBlanks_cons rfl) (skipBlanks_cons hblank) hclose]
    exact h₁.bind (h₂.map rfl)

theorem within_readEntries {es : List (String × Json)} (h : ∀ e ∈ es, e.2.Sorted) (depth : Nat)
    {bound : Nat} (hb : es.length < bound) (rest : List Char) :
    Within depth (entriesNesting es)
      (readEntries (readValue depth) bound (entriesChars es ++ '\x7d' :: rest))
      (reparsedEntries es, rest) := by
  match es, bound with
  | [], bound + 1 => exact .of_eq rfl
  | (k, v) :: es, bound + 1 =>
    obtain ⟨hv, hes⟩ := List.forall_mem_cons.mp h
    have h₁ := within_readValue hv depth _ (stopsRun_entriesChars es rest)
    have h₂ := within_readEntries hes depth (Nat.lt_of_succ_lt_succ hb) rest
    rw [entriesChars, quote]
    simp only [List.cons_append, List.append_assoc, List.nil_append]
    rw [readEntries_cons]
    exact (within_readEntry k h₁).bind (h₂.map rfl)

end

/-- The text of a value is read as the value with its numbers reparsed, with nothing left behind it. -/
theorem readFirst_text {v : Json} (hv : v.Sorted) (hle : v.nesting ≤ maxDepth) :
    readFirst v.text = .ok (v.reparsed, []) := by
  have hok := (within_readValue hv maxDepth [] trivial).1 hle
  rw [List.append_nil] at hok
  rw [readFirst, text, String.toList_ofList, hok]
  rfl

/-- A value is read from its own text, unless it is nested too deeply. -/
theorem read_text {v : Json} (hv : v.Printable) :
    (v.nesting ≤ maxDepth → read v.text = .ok v) ∧
    (maxDepth < v.nesting → ∃ position, read v.text = .error ⟨.tooDeep, position⟩) := by
  constructor
  · intro hle
    rw [read, readFirst_text hv.sorted hle, hv.reparsed_eq]
    rfl
  · intro hlt
    obtain ⟨unread, hu⟩ := (within_readValue hv.sorted maxDepth [] trivial).2 hlt
    rw [List.append_nil] at hu
    rw [read, readFirst, text, String.toList_ofList, hu]
    exact ⟨_, rfl⟩

end AccessRules.Json
