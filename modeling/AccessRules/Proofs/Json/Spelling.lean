import AccessRules.Proofs.Json.ReadBack
import Mathlib.Data.List.Forall2
import Mathlib.Data.List.TakeWhile

/-! Reading lists in any spelling, with blanks around their items and with items that are refused. -/
namespace AccessRules.Json

def Blank (cs : List Char) : Prop := ∀ c ∈ cs, isBlank c = true

section Blanks

variable {blanks cs rest : List Char}

theorem skipBlanks_append (hb : Blank blanks) (cs : List Char) :
    skipBlanks (blanks ++ cs) = skipBlanks cs :=
  List.dropWhile_append_of_pos hb

theorem skipBlanks_skipBlanks (cs : List Char) : skipBlanks (skipBlanks cs) = skipBlanks cs := by
  have hb : Blank (cs.takeWhile isBlank) := fun _ => List.mem_takeWhile_imp
  have h := skipBlanks_append hb (cs.dropWhile isBlank)
  rw [List.takeWhile_append_dropWhile] at h
  exact h.symm

/-- A value is read from where its blanks end. -/
theorem readValue_skipBlanks (depth : Nat) (cs : List Char) :
    readValue depth (skipBlanks cs) = readValue depth cs := by
  rw [readValue, readValue, skipBlanks_skipBlanks]

theorem skipBlanks_ne_nil {c : Char} (hc : c ∈ cs) (hn : isBlank c = false) :
    skipBlanks cs ≠ [] := by
  intro h
  have hb := List.dropWhile_eq_nil_iff.mp h c hc
  rw [hn] at hb
  cases hb

/-- No blank goes on with a numeral. -/
theorem stopsRun_append (hb : Blank blanks) (hr : StopsRun extendsNumeral rest) :
    StopsRun extendsNumeral (blanks ++ rest) := by
  cases blanks with
  | nil => exact hr
  | cons c blanks =>
    have hc := hb c List.mem_cons_self
    simp only [isBlank, Bool.or_eq_true, beq_iff_eq] at hc
    rcases hc with ((rfl | rfl) | rfl) | rfl <;> rfl

end Blanks

section Outcomes

variable {α β : Type} {rest rest' : List Char}

/-- The outcome of reading is the given one, with nothing but blanks left before the rest. -/
def Gives (rest : List Char) (x : Except Fault (α × List Char)) : Except Cause α → Prop
  | .ok a => ∃ blanks, Blank blanks ∧ x = .ok (a, blanks ++ rest)
  | .error cause => ∃ unread, x = .error ⟨cause, unread⟩

theorem Gives.bind {x : Except Fault (α × List Char)} {o : Except Cause α}
    {f : α × List Char → Except Fault (β × List Char)} {g : α → Except Cause β}
    (hx : Gives rest x o)
    (hf : ∀ a blanks, Blank blanks → Gives rest' (f (a, blanks ++ rest)) (g a)) :
    Gives rest' (x >>= f) (o >>= g) := by
  cases o with
  | ok a =>
    obtain ⟨blanks, hb, rfl⟩ := hx
    exact hf a blanks hb
  | error cause =>
    obtain ⟨unread, rfl⟩ := hx
    exact ⟨unread, rfl⟩

/-- What reading the text gives with a number of levels left, whatever follows it that does not go on
with a numeral. -/
def ReadsAs (depth : Nat) (cs : List Char) (o : Except Cause Json) : Prop :=
  ∀ rest, StopsRun extendsNumeral rest → Gives rest (readValue depth (cs ++ rest)) o

variable {depth : Nat} {cs blanks : List Char} {o : Except Cause Json}

theorem ReadsAs.padded {before after : List Char} (h : ReadsAs depth cs o) (hb : Blank before)
    (ha : Blank after) : ReadsAs depth (before ++ (cs ++ after)) o := by
  intro rest hr
  have hg := h (after ++ rest) (stopsRun_append ha hr)
  rw [List.append_assoc, List.append_assoc, ← readValue_skipBlanks, skipBlanks_append hb,
    readValue_skipBlanks]
  cases o with
  | ok v =>
    obtain ⟨left, hl, he⟩ := hg
    refine ⟨left ++ after, List.forall_mem_append.mpr ⟨hl, ha⟩, ?_⟩
    rw [he, List.append_assoc]
  | error cause => exact hg

theorem readsAs_chars {v : Json} (hv : v.Printable) (hn : v.nesting ≤ depth) :
    ReadsAs depth v.chars (.ok v) := by
  intro rest hr
  have h := (within_readValue hv.sorted depth rest hr).1 hn
  rw [hv.reparsed_eq] at h
  exact ⟨[], List.forall_mem_nil _, h⟩

section Numerals

def Numeral.outcome (n : Numeral) : Except Cause Json :=
  match n.value with
  | .ok m => .ok (.number m)
  | .error _ => .error .outOfRange

theorem Numeral.Spells.exists_cons {n : Numeral} {token : List Char} (h : n.Spells token) :
    ∃ c tail, token = c :: tail ∧ (c = '-' ∨ c.isDigit = true) := by
  obtain ⟨hn, -⟩ := h
  obtain ⟨c, ds, hw⟩ := List.exists_cons_of_ne_nil hn.whole.1
  have hc := hn.whole.2 c (hw ▸ List.mem_cons_self)
  rw [hw]
  split
  · exact ⟨'-', _, rfl, Or.inl rfl⟩
  · exact ⟨c, _, rfl, Or.inr hc⟩

theorem Numeral.Spells.readsAs {n : Numeral} {token : List Char} (h : n.Spells token)
    (depth : Nat) : ReadsAs depth token n.outcome := by
  intro rest hr
  have hread := h.readNumeral_append hr
  obtain ⟨c, tail, rfl, hc⟩ := h.exists_cons
  rw [List.cons_append] at hread ⊢
  rw [readValue_of_starts_number depth hc, readNumber, hread, Outcome.ok_bind, Numeral.outcome]
  dsimp only
  cases n.value with
  | ok m => exact ⟨[], List.forall_mem_nil _, rfl⟩
  | error after => exact ⟨_, rfl⟩

end Numerals

section Lists

/-- The items of a list after the first, each behind its comma. -/
def listed (texts : List (List Char)) : List Char := texts.flatMap (',' :: ·)

theorem length_le_length_listed (texts : List (List Char)) :
    texts.length ≤ (listed texts).length := by
  induction texts with
  | nil => exact Nat.le_refl 0
  | cons t texts ih =>
    rw [listed, List.flatMap_cons, List.length_append, List.length_cons, List.length_cons]
    rw [listed] at ih
    omega

theorem stopsRun_listed (texts : List (List Char)) (rest : List Char) :
    StopsRun extendsNumeral (listed texts ++ ']' :: rest) := by
  cases texts <;> rfl

/-- No value starts with a closing bracket. -/
theorem ReadsAs.exists_skipBlanks (h : ReadsAs depth cs o) (ho : o ≠ .error .noValue)
    (texts : List (List Char)) (rest : List Char) :
    ∃ c tail, skipBlanks (cs ++ (listed texts ++ ']' :: rest)) = c :: tail ∧ c ≠ ']' := by
  have hne : skipBlanks (cs ++ (listed texts ++ ']' :: rest)) ≠ [] :=
    skipBlanks_ne_nil (c := ']') (by simp) rfl
  obtain ⟨c, tail, htail⟩ := List.exists_cons_of_ne_nil hne
  refine ⟨c, tail, htail, ?_⟩
  rintro rfl
  have hg := h _ (stopsRun_listed texts rest)
  rw [readValue, htail] at hg
  cases o with
  | ok v =>
    obtain ⟨_, -, he⟩ := hg
    cases he
  | error cause =>
    obtain ⟨_, he⟩ := hg
    cases he
    exact ho rfl

/-- Items are read one after the other, until one is refused. -/
theorem gives_readItems {texts : List (List Char)} {os : List (Except Cause Json)}
    (h : List.Forall₂ (ReadsAs depth) texts os) (hos : ∀ o ∈ os, o ≠ .error .noValue) {bound : Nat}
    (hbound : texts.length < bound) (hb : Blank blanks) (rest : List Char) :
    Gives rest (readItems (readValue depth) bound (blanks ++ (listed texts ++ ']' :: rest)))
      (os.mapM id) := by
  induction h generalizing bound blanks with
  | nil =>
    obtain ⟨bound, rfl⟩ := Nat.exists_eq_add_of_lt hbound
    refine ⟨[], List.forall_mem_nil _, ?_⟩
    rw [readItems, skipBlanks_append hb]
    rfl
  | @cons t o texts os ht _ ih =>
    obtain ⟨bound, rfl⟩ := Nat.exists_eq_succ_of_ne_zero (Nat.ne_zero_of_lt hbound)
    obtain ⟨ho, hos⟩ := List.forall_mem_cons.mp hos
    have hr := stopsRun_listed texts rest
    have hl : listed (t :: texts) ++ ']' :: rest = ',' :: (t ++ (listed texts ++ ']' :: rest)) := by
      simp only [listed, List.flatMap_cons, List.cons_append, List.append_assoc]
    obtain ⟨c, tail, htail, hc⟩ := ht.exists_skipBlanks ho texts rest
    have hcomma : skipBlanks (blanks ++ ',' :: (t ++ (listed texts ++ ']' :: rest))) =
        ',' :: (t ++ (listed texts ++ ']' :: rest)) := by
      rw [skipBlanks_append hb, skipBlanks_cons rfl]
    rw [hl, readItems_of_skipBlanks bound hcomma htail hc, ← htail, readValue_skipBlanks,
      List.mapM_cons]
    refine (ht _ hr).bind fun v left hleft => ?_
    refine (ih hos (Nat.lt_of_succ_lt_succ hbound) hleft).bind fun vs left hleft => ?_
    exact ⟨left, hleft, rfl⟩

/-- A list is read as the list of what its items are read as, and is refused for the first of them
that is refused. -/
theorem readsAs_array {t : List Char} {texts : List (List Char)} {os : List (Except Cause Json)}
    (ht : ReadsAs depth t o) (h : List.Forall₂ (ReadsAs depth) texts os)
    (hos : ∀ p ∈ o :: os, p ≠ .error .noValue) :
    ReadsAs (depth + 1) ('[' :: (t ++ (listed texts ++ [']']))) (.array <$> (o :: os).mapM id) := by
  obtain ⟨ho, hos⟩ := List.forall_mem_cons.mp hos
  intro rest hr
  have hstop := stopsRun_listed texts rest
  have happ : '[' :: (t ++ (listed texts ++ [']'])) ++ rest =
      '[' :: (t ++ (listed texts ++ ']' :: rest)) := by
    simp only [List.cons_append, List.append_assoc, List.nil_append]
  have hvalue : readValue (depth + 1) ('[' :: (t ++ (listed texts ++ ']' :: rest))) =
      readArray (readValue depth) (t ++ (listed texts ++ ']' :: rest)) >>=
        fun found => .ok (.array found.1, found.2) := by
    rw [readValue]
    rfl
  obtain ⟨c, tail, htail, hc⟩ := ht.exists_skipBlanks ho texts rest
  rw [happ, hvalue, readArray_of_skipBlanks htail hc, ← htail, readValue_skipBlanks, List.mapM_cons,
    map_eq_pure_bind]
  refine Gives.bind ((ht _ hstop).bind fun v left hleft => ?_) fun vs left hleft => ⟨left, hleft, rfl⟩
  have hlen : texts.length < (left ++ (listed texts ++ ']' :: rest)).length := by
    have hle := length_le_length_listed texts
    simp only [List.length_append, List.length_cons]
    omega
  exact (gives_readItems h hos hlen hleft rest).bind fun vs left hleft => ⟨left, hleft, rfl⟩

end Lists

section Holes

/-- A text but for a place in it, before and after which it is as given, and the value of the text for
what stands at this place: the place is an item of a list, of a list in a list and so on. -/
inductive Hole : Nat → List Char → List Char → (Json → Json) → Prop
  | here {depth : Nat} {before after : List Char} (hb : Blank before) (ha : Blank after) :
      Hole depth before after fun v => v
  | item {depth : Nat} {front back before after : List Char} {value : Json → Json}
      {lefts rights : List (List Char)} {us ws : List Json} (hole : Hole depth front back value)
      (hl : List.Forall₂ (fun t u => ReadsAs depth t (.ok u)) lefts us)
      (hr : List.Forall₂ (fun t u => ReadsAs depth t (.ok u)) rights ws)
      (hb : Blank before) (ha : Blank after) :
      Hole (depth + 1) (before ++ '[' :: (lefts.flatMap (· ++ [',']) ++ front))
        (back ++ (listed rights ++ ']' :: after)) fun v => .array (us ++ value v :: ws)

/-- The commas after some items are those before the ones that follow. -/
theorem flatMap_append_comma (texts : List (List Char)) :
    ',' :: texts.flatMap (· ++ [',']) = listed texts ++ [','] := by
  induction texts with
  | nil => rfl
  | cons t texts ih =>
    rw [listed] at ih ⊢
    rw [List.flatMap_cons, List.flatMap_cons, List.append_assoc, List.append_assoc, ← ih]
    rfl

theorem readsAs_array_around {t : List Char} {lefts rights : List (List Char)}
    {ls rs : List (Except Cause Json)} (hl : List.Forall₂ (ReadsAs depth) lefts ls)
    (ht : ReadsAs depth t o) (hr : List.Forall₂ (ReadsAs depth) rights rs)
    (hos : ∀ p ∈ ls ++ o :: rs, p ≠ .error .noValue) :
    ReadsAs (depth + 1)
      ('[' :: (lefts.flatMap (· ++ [',']) ++ (t ++ (listed rights ++ [']']))))
      (.array <$> (ls ++ o :: rs).mapM id) := by
  cases hl with
  | nil => exact readsAs_array ht hr hos
  | @cons l p lefts ls hl hls =>
    have hcomma : (l :: lefts).flatMap (· ++ [',']) ++ (t ++ (listed rights ++ [']'])) =
        l ++ (listed (lefts ++ t :: rights) ++ [']']) := by
      have h := congrArg (· ++ (t ++ (listed rights ++ [']']))) (flatMap_append_comma lefts)
      simp only [listed, List.flatMap_cons, List.flatMap_append, List.append_assoc,
        List.cons_append, List.nil_append] at h ⊢
      rw [h]
    rw [hcomma]
    exact readsAs_array hl (List.rel_append hls (.cons ht hr)) hos

theorem mapM_around (us ws : List Json) (value : Json → Json) (o : Except Cause Json) :
    (us.map Except.ok ++ (value <$> o) :: ws.map Except.ok).mapM id =
      (fun v => us ++ value v :: ws) <$> o := by
  have hok (vs : List Json) : (vs.map Except.ok).mapM id = (.ok vs : Except Cause (List Json)) := by
    have h := Outcome.mapM_ok (ε := Cause) (g := id) (fun _ => rfl) vs
    rw [List.map_id] at h
    rw [List.mapM_map]
    exact h
  rw [List.mapM_append, List.mapM_cons, hok us, hok ws]
  cases o <;> rfl

/-- A text is read around what stands in it, whose fault is the only one. -/
theorem Hole.readsAs {front back : List Char} {value : Json → Json} {t : List Char}
    (h : Hole depth front back value) (ht : ∀ depth, ReadsAs depth t o)
    (ho : o ≠ .error .noValue) : ReadsAs depth (front ++ (t ++ back)) (value <$> o) := by
  induction h with
  | here hb ha =>
    rw [id_map' o]
    exact (ht _).padded hb ha
  | @item _ _ _ _ _ value _ _ us ws _ hl hr hb ha ih =>
    have hlefts := List.forall₂_map_right_iff.mpr hl
    have hrights := List.forall₂_map_right_iff.mpr hr
    have hmap : value <$> o ≠ .error .noValue := by
      cases o with
      | ok v => exact fun h => nomatch h
      | error cause => exact ho
    have hok (vs : List Json) : ∀ p ∈ vs.map Except.ok, p ≠ .error Cause.noValue := by
      simp
    have hall := List.forall_mem_append.mpr ⟨hok us, List.forall_mem_cons.mpr ⟨hmap, hok ws⟩⟩
    have harray := (readsAs_array_around hlefts ih hrights hall).padded hb ha
    rw [mapM_around, Functor.map_map] at harray
    simpa only [List.append_assoc, List.cons_append, List.nil_append] using harray

end Holes

section Texts

theorem ReadsAs.read_eq_ok {v : Json} (h : ReadsAs maxDepth cs (.ok v)) :
    read (String.ofList cs) = .ok v := by
  obtain ⟨left, hl, he⟩ := h [] trivial
  rw [List.append_nil, List.append_nil] at he
  have hend : skipBlanks left = [] := List.dropWhile_eq_nil_iff.mpr hl
  rw [read, readFirst, String.toList_ofList, he]
  simp only [Except.mapError, Outcome.ok_bind, readEnd, hend]
  rfl

theorem ReadsAs.exists_read_eq_error {cause : Cause} (h : ReadsAs maxDepth cs (.error cause)) :
    ∃ position, read (String.ofList cs) = .error ⟨cause, position⟩ := by
  obtain ⟨unread, he⟩ := h [] trivial
  rw [List.append_nil] at he
  rw [read, readFirst, String.toList_ofList, he]
  exact ⟨_, rfl⟩

end Texts

end Outcomes

end AccessRules.Json
