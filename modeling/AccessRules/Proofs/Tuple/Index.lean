import AccessRules.Proofs.Json.Spelling
import AccessRules.Proofs.Rule.Number
import AccessRules.Proofs.Tuple.Decimals
import AccessRules.Proofs.Tuple.Settled
import Mathlib.Data.List.Induction

/-! Indices of lists keep all of their 64 bits, from the text of a condition to its rule text and back,
and no other number is taken for an index. -/
namespace AccessRules

namespace Json.Numeral

section Digits

theorem digitChar_of_isDigit {c : Char} (hc : c.isDigit = true) :
    c.toNat - '0'.toNat < 10 ∧ Nat.digitChar (c.toNat - '0'.toNat) = c := by
  have hbounds : '0'.toNat ≤ c.toNat ∧ c.toNat ≤ '9'.toNat := by
    simpa [Char.isDigit, UInt32.le_iff_toNat_le] using hc
  have hlt : c.toNat - '0'.toNat < 10 := by
    have hnine : '9'.toNat = '0'.toNat + 9 := rfl
    omega
  refine ⟨hlt, Char.toNat_inj.mp ?_⟩
  rw [Nat.toNat_digitChar_of_lt_ten hlt]
  have hzero : '0'.toNat = 48 := rfl
  omega

/-- Digits without leading zeros are those of the number that they make. -/
theorem toDigits_ofDigitChars {ds : List Char} (hd : IsDigits ds)
    (hz : ∀ d es, ds ≠ '0' :: d :: es) : Nat.toDigits 10 (Nat.ofDigitChars 10 ds 0) = ds := by
  induction ds using List.reverseRecOn with
  | nil => exact (hd.1 rfl).elim
  | append_singleton ds d ih =>
    obtain ⟨hds, hlast⟩ := List.forall_mem_append.mp hd.2
    obtain ⟨hlt, hchar⟩ := digitChar_of_isDigit (hlast d List.mem_cons_self)
    have hone : Nat.toDigits 10 (d.toNat - '0'.toNat) = [d] := by
      rw [Nat.toDigits_of_lt_base hlt, hchar]
    rw [Nat.ofDigitChars_append, Nat.ofDigitChars_cons, Nat.ofDigitChars_nil]
    by_cases hne : ds = []
    · rw [hne, Nat.ofDigitChars_nil, Nat.mul_zero, Nat.zero_add, hone, List.nil_append]
    · -- What precedes the last digit is not a zero, so its own digits come back before that digit.
      have hzero : ∀ c es, ds ≠ '0' :: c :: es := by
        rintro c es rfl
        exact hz c (es ++ [d]) rfl
      have hdigits := ih ⟨hne, hds⟩ hzero
      have hpos : 0 < Nat.ofDigitChars 10 ds 0 := by
        apply Nat.pos_of_ne_zero
        intro h
        rw [h, Nat.toDigits_zero] at hdigits
        exact hz d [] (by rw [← hdigits]; rfl)
      rw [← Nat.toDigits_append_toDigits (by decide) hpos hlt, hdigits, hone]

theorem absorb_fst {bound n : Nat} {ds : List Char} (h : (absorb bound n ds).2 = 0) :
    (absorb bound n ds).1 = Nat.ofDigitChars 10 ds n := by
  induction ds generalizing n with
  | nil => rfl
  | cons d ds ih =>
    rw [absorb] at h ⊢
    split at h
    next hlt =>
      rw [if_pos hlt, ih h, Nat.ofDigitChars_cons, Nat.mul_comm 10]
      rfl
    next => cases h

end Digits

/-- The numeral has neither a sign, a fraction nor an exponent, and its digits make the index. -/
structure IsIndex (w : Numeral) (i : UInt64) : Prop where
  unsigned : w.negative = false
  whole : w.fraction = none
  plain : w.exponent = none
  value_eq : Nat.ofDigitChars 10 w.whole 0 = i.toNat

variable {w : Numeral} {i : UInt64}

theorem IsIndex.eq_mk (h : w.IsIndex i) (hw : w.Legal) :
    w = ⟨false, Nat.toDigits 10 i.toNat, none, none⟩ := by
  have hdigits := toDigits_ofDigitChars hw.whole hw.leading
  rw [h.value_eq] at hdigits
  obtain ⟨negative, whole, fraction, exponent⟩ := w
  obtain ⟨rfl, rfl, rfl, -⟩ := h
  rw [hdigits]

theorem Spells.legal {token : List Char} (h : w.Spells token) : w.Legal := by
  obtain ⟨hw, -⟩ := h
  exact hw

/-- An index is spelled with its own decimal digits. -/
theorem IsIndex.token_eq (h : w.IsIndex i) {token : List Char} (hs : w.Spells token) :
    token = (toString i.toNat).toList := by
  have hmk := h.eq_mk hs.legal
  obtain ⟨-, he⟩ := hs
  rw [h.plain] at he
  cases he
  rw [hmk, toList_toString]
  exact List.append_nil _

theorem IsIndex.exists_value (h : w.IsIndex i) (hw : w.Legal) :
    ∃ n, w.value = .ok n ∧ n.index? = some i := by
  have hlt := i.toNat_lt
  have hvalue := value_integer i.toNat (by omega)
  have hneg : decide ((i.toNat : Int) < 0) = false := decide_eq_false (by omega)
  rw [Int.natAbs_natCast, hneg, ← h.eq_mk hw] at hvalue
  exact ⟨_, hvalue, Number.index?_toNat i _⟩

/-- Only plain digits make an integer, and with a minus it is below zero. -/
theorem of_integer? {n : Number} (h : w.integer? = some n) :
    w.fraction = none ∧ w.exponent = none ∧ Nat.ofDigitChars 10 w.whole 0 < wordBound ∧
      ∃ k range, n = .integer k range ∧
        if w.negative then k < 0 else k = Nat.ofDigitChars 10 w.whole 0 := by
  have hbound := absorb_lt w.whole (show 0 < wordBound by decide)
  unfold integer? at h
  simp only at h
  split at h
  next hplain =>
    obtain ⟨hf, he, hall⟩ := hplain
    have hdigits := absorb_fst hall
    rw [← hdigits]
    refine ⟨hf, he, hbound, ?_⟩
    split at h
    next hneg =>
      split at h
      next hpos =>
        obtain rfl := Option.some.inj h
        refine ⟨_, _, rfl, ?_⟩
        rw [if_pos hneg]
        omega
      next => cases h
    next hneg =>
      obtain rfl := Option.some.inj h
      exact ⟨_, _, rfl, by rw [if_neg hneg]⟩
  next => cases h

/-- No other numeral is read as an index. -/
theorem isIndex_of_index? {n : Number} (hn : w.value = .ok n) (hi : n.index? = some i) :
    w.IsIndex i := by
  unfold value at hn
  split at hn
  next integer hint =>
    obtain rfl := Except.ok.inj hn
    obtain ⟨hf, he, hbound, k, range, rfl, hk⟩ := of_integer? hint
    rw [Number.index?] at hi
    split at hi
    next hpos =>
      split at hk
      next => exact (Int.not_lt.mpr hpos hk).elim
      next hneg =>
        obtain rfl := Option.some.inj hi
        refine ⟨Bool.eq_false_iff.mpr hneg, hf, he, ?_⟩
        rw [hk, Int.toNat_natCast, UInt64.toNat_ofNat']
        exact (Nat.mod_eq_of_lt hbound).symm
    next => cases hi
  next =>
    obtain ⟨x, -, rfl⟩ := Outcome.map_eq_ok_iff.mp hn
    cases hi

theorem isIndex_iff (hw : w.Legal) : w.IsIndex i ↔ ∃ n, w.value = .ok n ∧ n.index? = some i :=
  ⟨fun h => h.exists_value hw, fun ⟨_, hn, hi⟩ => isIndex_of_index? hn hi⟩

end Json.Numeral

/-- An index is printed with all of its digits. -/
theorem Json.text_ofIndex (i : UInt64) : (ofIndex i).text = toString i.toNat := by
  have hneg : ¬ (i.toNat : Int) < 0 := by omega
  rw [text, ofIndex, chars, Number.chars, if_neg hneg, Int.natAbs_natCast, ← toList_toString,
    String.ofList_toList]

namespace Condition

/-- An item of the list in a field is compared with a value. -/
def atIndex (f : Field) (i : UInt64) (op : Comparison) (value : Scalar) : Condition :=
  ⟨f, .listGet i op value⟩

section Index

variable {u v : Json} {f : Field} {op : Comparison} {value : Scalar} {i : UInt64}

theorem rule_atIndex {s t : String} (hs : f.rule = .ok s) (ht : value.rule = .ok t) :
    (atIndex f i op value).rule =
      .ok (s ++ "[" ++ toString i.toNat ++ "] " ++ Token.token op ++ " " ++ t) := by
  obtain ⟨hf, rfl⟩ := (Field.rule_eq_ok_iff f s).mp hs
  obtain ⟨hv, rfl⟩ := (Scalar.rule_eq_ok_iff value t).mp ht
  refine (rule_eq_ok_iff _ _).mpr ⟨⟨hf, hv, trivial⟩, ?_⟩
  simp only [text, atIndex, Test.text, comparisonRule, String.append_assoc]
  rfl

theorem ofJson_toJson_atIndex (hv : Scalar.TupleForm v value) :
    Condition.ofJson (atIndex f i op value).toJson =
      .ok (atIndex f i op (value.mapNumbers .settled)) :=
  (ofJson_toJson_iff _ _).mpr ⟨⟨hv.isFinite, id⟩, rfl⟩

theorem parse_text_atIndex (hv : Scalar.TupleForm v value) :
    Condition.parse (atIndex f i op value).toJson.text =
      .ok (atIndex f i op (value.mapNumbers .reparsed)) :=
  (parse_text_of_canonical (c := atIndex f i op value) ⟨hv.isFinite, trivial⟩).1

/-- The number in a `get` tuple is an index or the fault of the tuple. -/
theorem ofJson_get_number (hf : Field.TupleForm u f) (hv : Scalar.TupleForm v value)
    (n : Json.Number) :
    Condition.ofJson (.array [u, .string "get", .number n, .ofToken op, v]) =
      match n.index? with
      | some i => .ok (atIndex f i op value)
      | none => .error (.mismatch .listIndex (.number n)) := by
  have hget : Token.ofString? "get" = some Verb.get := Token.Exact.ofString?_token Verb.get
  simp only [Condition.ofJson, hf.isField_cons, (Field.ofJson_eq_ok_iff u f).mpr hf,
    Json.expectString, Outcome.ok_bind, Test.ofTuple, hget, Test.ofGet, Json.expectToken_ofToken,
    (Scalar.ofJson_eq_ok_iff v value).mpr hv]
  cases n.index? <;> rfl

end Index

/-- A text of the tuple of a field, `"get"`, a key, a comparison and an operand, with each part in any
of its spellings. -/
inductive GetText (f : Field) (key : List Char) (op : Comparison) (value : Scalar) : String → Prop
  | intro {field verb comparison operand : List Char} {u v : Json}
      (hfield : Json.ReadsAs (Json.maxDepth - 1) field (.ok u)) (hf : Field.TupleForm u f)
      (hverb : Json.ReadsAs (Json.maxDepth - 1) verb (.ok (.string "get")))
      (hcomparison : Json.ReadsAs (Json.maxDepth - 1) comparison (.ok (.ofToken op)))
      (hoperand : Json.ReadsAs (Json.maxDepth - 1) operand (.ok v)) (hv : Scalar.TupleForm v value)
      {before left right after : List Char} (hbefore : Json.Blank before) (hleft : Json.Blank left)
      (hright : Json.Blank right) (hafter : Json.Blank after) :
      GetText f key op value (String.ofList (before ++ ('[' :: (field ++
        (Json.listed [verb, left ++ (key ++ right), comparison, operand] ++ [']'])) ++ after)))

namespace GetText

variable {f : Field} {key : List Char} {op : Comparison} {value : Scalar} {text : String}
  {w : Json.Numeral}

theorem exists_operand (h : GetText f key op value text) : ∃ v, Scalar.TupleForm v value := by
  obtain ⟨-, -, -, -, -, hv, -⟩ := h
  exact ⟨_, hv⟩

/-- A tuple is refused for its key alone. -/
theorem exists_readsAs (h : GetText f key op value text) (hw : w.Spells key) :
    ∃ cs u v, text = String.ofList cs ∧ Field.TupleForm u f ∧ Scalar.TupleForm v value ∧
      Json.ReadsAs Json.maxDepth cs
        ((fun k => .array [u, .string "get", k, .ofToken op, v]) <$> w.outcome) := by
  obtain ⟨hfield, hf, hverb, hcomparison, hoperand, hv, hbefore, hleft, hright, hafter⟩ := h
  refine ⟨_, _, _, rfl, hf, hv, ?_⟩
  have hhole := Json.Hole.item (.here hleft hright) (.cons hfield (.cons hverb .nil))
    (.cons hcomparison (.cons hoperand .nil)) hbefore hafter
  have houtcome : w.outcome ≠ .error .noValue := by
    unfold Json.Numeral.outcome
    split <;> simp
  have hread : Json.ReadsAs Json.maxDepth _ _ := hhole.readsAs hw.readsAs houtcome
  simpa [Json.listed] using hread

/-- A key without a value is out of range. -/
theorem read_cases (h : GetText f key op value text) (hw : w.Spells key) :
    (∃ n v, w.value = .ok n ∧ Json.read text = .ok v ∧
      Condition.ofJson v =
        match n.index? with
        | some i => .ok (atIndex f i op value)
        | none => .error (.mismatch .listIndex (.number n))) ∨
    (∀ n, w.value ≠ .ok n) ∧ ∃ position, Json.read text = .error ⟨.outOfRange, position⟩ := by
  obtain ⟨cs, u, v, rfl, hf, hv, hread⟩ := h.exists_readsAs hw
  unfold Json.Numeral.outcome at hread
  cases hn : w.value with
  | ok n =>
    rw [hn] at hread
    exact Or.inl ⟨n, _, rfl, hread.read_eq_ok, ofJson_get_number hf hv n⟩
  | error after =>
    rw [hn] at hread
    exact Or.inr ⟨by simp, hread.exists_read_eq_error⟩

theorem parse_eq_ok_iff (h : GetText f key op value text) (hw : w.Spells key) (c : Condition) :
    Condition.parse text = .ok c ↔ ∃ i, w.IsIndex i ∧ atIndex f i op value = c := by
  simp only [Json.Numeral.isIndex_iff hw.legal]
  obtain ⟨n, v, hn, hread, hv⟩ | ⟨hn, position, hread⟩ := h.read_cases hw
  · rw [Condition.parse, Json.load, hread]
    simp only [Except.mapError, Outcome.ok_bind, hv, hn]
    cases hi : n.index? <;> simp [hi]
  · rw [Condition.parse, Json.load, hread]
    simp [Except.mapError, hn]

/-- A number that is no index is named in the fault. -/
theorem parse_eq_error (h : GetText f key op value text) (hw : w.Spells key)
    (hno : ∀ i, ¬ w.IsIndex i) {v : Json} (hv : Json.read text = .ok v) :
    ∃ n, w.value = .ok n ∧ Condition.parse text = .error (.mismatch .listIndex (.number n)) := by
  obtain ⟨n, v, hn, hread, ho⟩ | ⟨-, position, hread⟩ := h.read_cases hw
  · have hi : n.index? = none := by
      rw [Option.eq_none_iff_forall_ne_some]
      exact fun i hi => hno i (Json.Numeral.isIndex_of_index? hn hi)
    refine ⟨n, hn, ?_⟩
    rw [Condition.parse, Json.load, hread]
    simp only [Except.mapError, Outcome.ok_bind, ho, hi]
  · rw [hread] at hv
    cases hv

theorem cause_eq (h : GetText f key op value text) (hw : w.Spells key) {e : Json.Error}
    (he : Json.read text = .error e) : e.cause = .outOfRange := by
  obtain ⟨n, v, -, hread, -⟩ | ⟨-, position, hread⟩ := h.read_cases hw
  · rw [hread] at he
    cases he
  · rw [hread] at he
    cases he
    rfl

end GetText

/-- In a `get` tuple, exactly the plain numerals below `2 ^ 64` are indices. The index is the number
that the numeral writes, in the rule text, in the tuple form and in what is read from that and from
its text. Any other numeral is refused for what it is, unless it is too large for a number at all. -/
theorem parse_getText_outcome :
    (∀ (w : Json.Numeral) (token : List Char),
      w.Spells token ↔ Json.readNumeral token = .ok (w, [])) ∧
    ∀ (w : Json.Numeral) (token : List Char) (f : Field) (op : Comparison) (value : Scalar)
      (text : String), w.Spells token → GetText f token op value text →
      ((∃ c, Condition.parse text = .ok c) ↔ ∃ i, w.IsIndex i) ∧
      (∀ i, w.IsIndex i →
        token = (toString i.toNat).toList ∧
        Condition.parse text = .ok (atIndex f i op value) ∧
        (∀ s t, f.rule = .ok s → value.rule = .ok t →
          (atIndex f i op value).rule =
            .ok (s ++ "[" ++ toString i.toNat ++ "] " ++ Token.token op ++ " " ++ t)) ∧
        (atIndex f i op value).toJson =
          .array [f.toJson, .string "get", .ofIndex i, .ofToken op, value.toJson] ∧
        (Json.ofIndex i).text = toString i.toNat ∧
        Condition.ofJson (atIndex f i op value).toJson =
          .ok (atIndex f i op (value.mapNumbers .settled)) ∧
        Condition.parse (atIndex f i op value).toJson.text =
          .ok (atIndex f i op (value.mapNumbers .reparsed))) ∧
      ((∀ i, ¬ w.IsIndex i) → ∀ v, Json.read text = .ok v →
        ∃ n e, w.value = .ok n ∧ Condition.parse text = .error e ∧
          e = .mismatch .listIndex (.number n) ∧
          e.payload = "expected a non-negative list index, found " ++ (Json.number n).text) ∧
      ∀ e, Json.read text = .error e → e.cause = .outOfRange := by
  refine ⟨Json.Numeral.spells_iff, ?_⟩
  intro w token f op value text hw ht
  have hok := ht.parse_eq_ok_iff hw
  refine ⟨?_, ?_, ?_, ?_⟩
  · simp only [hok]
    exact ⟨fun ⟨_, i, hi, _⟩ => ⟨i, hi⟩, fun ⟨i, hi⟩ => ⟨_, i, hi, rfl⟩⟩
  · intro i hi
    obtain ⟨v, hv⟩ := ht.exists_operand
    exact ⟨hi.token_eq hw, (hok _).mpr ⟨i, hi, rfl⟩, fun s t => rule_atIndex, rfl,
      Json.text_ofIndex i, ofJson_toJson_atIndex hv, parse_text_atIndex hv⟩
  · intro hno v hread
    obtain ⟨n, hn, hparse⟩ := ht.parse_eq_error hw hno hread
    exact ⟨n, _, hn, hparse, rfl, rfl⟩
  · exact fun e => ht.cause_eq hw

def itemsField : Field := .here ⟨[.literal "items"], by decide⟩

/-- The text of a tuple with blanks around its key. -/
def spacedGet (key : String) : String :=
  String.ofList ('[' :: (itemsField.toJson.chars ++ (Json.listed [(Json.string "get").chars,
    [' '] ++ (key.toList ++ ['\n']), (Json.ofToken Comparison.lt).chars,
    (Json.string "b").chars] ++ [']'])))

example : spacedGet "7" = "[[\"field\",[\"items\"]],\"get\", 7\n,\"<\",\"b\"]" := by
  decide +kernel

theorem getText_spacedGet (key : String) :
    GetText itemsField key.toList .lt (.string "b") (spacedGet key) := by
  have hreads {v : Json} (hv : v.Printable) (hn : v.nesting ≤ 4) :
      Json.ReadsAs (Json.maxDepth - 1) v.chars (.ok v) :=
    Json.readsAs_chars hv (Nat.le_trans hn (by decide))
  have hstring (s : String) := hreads (.string s) (Nat.zero_le 4)
  have hfield := hreads itemsField.printable_toJson itemsField.nesting_toJson.2
  have hf := (Field.ofJson_eq_ok_iff _ _).mp itemsField.ofJson_toJson
  have hnone : Json.Blank [] := List.forall_mem_nil _
  have hspace : Json.Blank [' '] := List.forall_mem_singleton.mpr rfl
  have hline : Json.Blank ['\n'] := List.forall_mem_singleton.mpr rfl
  have hget : GetText itemsField key.toList .lt (.string "b") _ :=
    .intro hfield hf (hstring "get") (hstring (Token.token Comparison.lt)) (hstring "b")
      (.string "b") hnone hspace hline hnone
  rw [List.nil_append, List.append_nil] at hget
  exact hget

/-- The largest index, and minus zero. -/
theorem parse_getText_outcome_largest :
    Condition.parse (spacedGet "18446744073709551615") =
      .ok (atIndex itemsField 18446744073709551615 .lt (.string "b")) ∧
    Condition.parse (spacedGet "-0") =
      .error (.mismatch .listIndex (.number (.double ⟨true, .zero⟩))) := by
  have hlargest : Json.Numeral.Spells ⟨false, "18446744073709551615".toList, none, none⟩
      "18446744073709551615".toList := (Json.Numeral.spells_iff _ _).mpr (by decide +kernel)
  have hzero : Json.Numeral.Spells ⟨true, ['0'], none, none⟩ "-0".toList :=
    (Json.Numeral.spells_iff _ _).mpr rfl
  obtain ⟨-, h⟩ := parse_getText_outcome
  constructor
  · exact ((h _ _ _ _ _ _ hlargest (getText_spacedGet _)).2.1 18446744073709551615
      ⟨rfl, rfl, rfl, by decide +kernel⟩).2.1
  · have hvalue : Json.Numeral.value ⟨true, ['0'], none, none⟩ = .ok (.double ⟨true, .zero⟩) := by
      decide +kernel
    obtain ⟨n, v, hn, hread, -⟩ | ⟨hn, -⟩ := (getText_spacedGet "-0").read_cases hzero
    · obtain ⟨n, e, hn, hparse, rfl, -⟩ := (h _ _ _ _ _ _ hzero (getText_spacedGet _)).2.2.1
        (fun i hi => Bool.noConfusion hi.unsigned) v hread
      rw [hvalue] at hn
      cases hn
      exact hparse
    · exact (hn _ hvalue).elim

end Condition

end AccessRules
