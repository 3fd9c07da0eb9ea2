import AccessRules.Proofs.Rule.Legible
import AccessRules.Proofs.Rule.Number

/-! Parentheses in rule text are balanced outside strings. -/
namespace AccessRules

/-- Where a reader of rule text stands: open parentheses, and whether it is inside a string. -/
structure Cursor where
  depth : Nat
  quoted : Bool
deriving DecidableEq

namespace Cursor

/-- The characters that nest or quote. -/
def isMark (c : Char) : Bool := c == '(' || c == ')' || c == '"'

/-- Passes one character; no parenthesis is closed that was not opened. -/
def step : Cursor → Char → Option Cursor
  | ⟨k, true⟩, c => some ⟨k, c != '"'⟩
  | ⟨k, false⟩, '"' => some ⟨k, true⟩
  | ⟨k, false⟩, '(' => some ⟨k + 1, false⟩
  | ⟨0, false⟩, ')' => none
  | ⟨k + 1, false⟩, ')' => some ⟨k, false⟩
  | ⟨k, false⟩, _ => some ⟨k, false⟩

def scan (k : Cursor) (s : List Char) : Option Cursor := s.foldlM step k

theorem scan_append (k : Cursor) (s t : List Char) :
    k.scan (s ++ t) = (k.scan s).bind (·.scan t) :=
  List.foldlM_append

theorem step_of_not_mark (k : Nat) {c : Char} (hc : isMark c = false) :
    step ⟨k, false⟩ c = some ⟨k, false⟩ := by
  simp only [isMark, Bool.or_eq_false_iff, beq_eq_false_iff_ne] at hc
  unfold step
  split <;> simp_all

theorem scan_of_not_mark (k : Nat) {s : List Char} (hs : ∀ c ∈ s, isMark c = false) :
    scan ⟨k, false⟩ s = some ⟨k, false⟩ := by
  induction s with
  | nil => rfl
  | cons c s ih =>
    rw [List.forall_mem_cons] at hs
    rw [scan, List.foldlM_cons, step_of_not_mark k hs.1]
    exact ih hs.2

theorem scan_quoted (k : Nat) {s : List Char} (hs : '"' ∉ s) :
    scan ⟨k, true⟩ s = some ⟨k, true⟩ := by
  induction s with
  | nil => rfl
  | cons c s ih =>
    rw [List.mem_cons, not_or] at hs
    have hc : (c != '"') = true := bne_iff_ne.mpr (Ne.symm hs.1)
    rw [scan, List.foldlM_cons, step, hc]
    exact ih hs.2

end Cursor

/-- The text leads from `i` to `j` open parentheses, whatever is open around it. -/
def Nests (s : String) (i j : Nat) : Prop :=
  ∀ k, Cursor.scan ⟨k + i, false⟩ s.toList = some ⟨k + j, false⟩

namespace Nests

variable {s t : String} {i j l : Nat}

theorem append (hs : Nests s i j) (ht : Nests t j l) : Nests (s ++ t) i l := by
  intro k
  rw [String.toList_append, Cursor.scan_append, hs k]
  exact ht k

theorem deeper (hs : Nests s i j) : Nests s (i + 1) (j + 1) := by
  intro k
  have h := hs (k + 1)
  rw [Nat.add_right_comm k 1 i, Nat.add_right_comm k 1 j] at h
  exact h

theorem of_not_mark (hs : ∀ c ∈ s.toList, Cursor.isMark c = false) : Nests s i i :=
  fun k => Cursor.scan_of_not_mark (k + i) hs

theorem quote (hs : '"' ∉ s.toList) : Nests (stringRule s) i i := by
  intro k
  have h : (stringRule s).toList = '"' :: (s.toList ++ ['"']) := by simp [stringRule]
  rw [h, Cursor.scan, List.foldlM_cons]
  change Cursor.scan ⟨k + i, true⟩ (s.toList ++ ['"']) = _
  rw [Cursor.scan_append, Cursor.scan_quoted (k + i) hs]
  rfl

theorem join {ss : List String} (hs : ∀ s ∈ ss, Nests s i i) : Nests (String.join ss) i i := by
  induction ss with
  | nil => exact fun _ => rfl
  | cons s ss ih =>
    rw [List.forall_mem_cons] at hs
    rw [String.join_cons]
    exact hs.1.append (ih hs.2)

theorem intercalate {sep : String} {ss : List String} (hsep : Nests sep i i)
    (hs : ∀ s ∈ ss, Nests s i i) : Nests (sep.intercalate ss) i i := by
  induction ss with
  | nil => exact fun _ => rfl
  | cons s ss ih =>
    rw [List.forall_mem_cons] at hs
    cases ss with
    | nil =>
      rw [String.intercalate_singleton]
      exact hs.1
    | cons t ss =>
      rw [String.intercalate_cons_cons]
      exact (hs.1.append hsep).append (ih hs.2)

/-- A balanced text does not close a parenthesis after a balanced beginning. -/
theorem not_append_close (hs : Nests s 0 0) (ht : Nests t 0 0) (r : List Char) :
    t.toList ≠ s.toList ++ ')' :: r := by
  intro h
  have hk := ht 0
  rw [h, Cursor.scan_append, hs 0] at hk
  cases hk

/-- Where a balanced text is followed by a parenthesis that closes, it ends there. -/
theorem cancel {r u : List Char} (hs : Nests s 0 0) (ht : Nests t 0 0)
    (h : s.toList ++ ')' :: r = t.toList ++ ')' :: u) : s = t ∧ r = u := by
  rcases List.append_eq_append_iff.mp h with ⟨a, ha, hr⟩ | ⟨a, ha, hu⟩
  · cases a with
    | nil =>
      rw [List.append_nil] at ha
      exact ⟨String.toList_inj.mp ha.symm, (List.cons.inj hr).2⟩
    | cons c a =>
      obtain ⟨rfl, -⟩ := List.cons.inj hr
      exact absurd ha (hs.not_append_close ht a)
  · cases a with
    | nil =>
      rw [List.append_nil] at ha
      exact ⟨String.toList_inj.mp ha, (List.cons.inj hu).2.symm⟩
    | cons c a =>
      obtain ⟨rfl, -⟩ := List.cons.inj hu
      exact absurd ha (ht.not_append_close hs a)

end Nests

theorem not_mark_of_class {p : Char → Bool} (ho : p '(' = false) (hc : p ')' = false)
    (hq : p '"' = false) {c : Char} (h : p c = true) : Cursor.isMark c = false := by
  apply Bool.eq_false_iff.mpr
  intro hm
  simp only [Cursor.isMark, Bool.or_eq_true, beq_iff_eq] at hm
  rcases hm with (rfl | rfl) | rfl
  · simp [ho] at h
  · simp [hc] at h
  · simp [hq] at h

section Texts

variable {i : Nat}

theorem nests_name {s : String} (hs : isName s = true) : Nests s i i :=
  .of_not_mark fun c hc => not_mark_of_class rfl rfl rfl (isNameChar_of_mem hs c hc)

theorem Double.nests_text {x : Double} (hx : x.IsSettled) : Nests x.text i i :=
  .of_not_mark fun c hc => not_mark_of_class rfl rfl rfl (isNumberChar_of_mem_text hx.1 c hc)

theorem Segment.nests_rule {s : Segment} (hs : isName s.name = true) : Nests s.rule i i := by
  cases s with
  | literal name => exact .append (fun _ => rfl) (nests_name hs)
  | param name => exact .append (.append (fun _ => rfl) (nests_name hs)) fun _ => rfl

theorem Segment.nests_documentRule {s : Segment} (hs : isName s.name = true) :
    Nests s.documentRule i i := by
  cases s with
  | literal name => exact nests_name hs
  | param name => exact .append (.append (fun _ => rfl) (nests_name hs).deeper) fun _ => rfl

theorem Path.nests_rule {p : Path} (hp : ∀ s ∈ p.segments, isName s.name = true) :
    Nests p.rule i i := by
  apply Nests.join
  rw [List.forall_mem_map]
  exact fun s hs => Segment.nests_rule (hp s hs)

theorem Field.nests_text {f : Field} (hf : f.Legible) : Nests f.text i i := by
  obtain ⟨hs, hn⟩ := hf
  cases f with
  | here path => exact Path.nests_rule hn
  | elsewhere document path =>
    rw [segments, List.forall_mem_append] at hn
    have hd : Nests ("/".intercalate (document.segments.map Segment.documentRule)) (i + 1)
        (i + 1) := by
      apply Nests.intercalate (fun _ => rfl)
      rw [List.forall_mem_map]
      exact fun s hs => Segment.nests_documentRule (hn.1 s hs)
    exact .append (.append (.append (fun _ => rfl) hd) fun _ => rfl) (Path.nests_rule hn.2)
  | updated path => exact hs.elim

theorem Scalar.nests_text {v : Scalar} (hv : v.Legible) : Nests v.text i i := by
  obtain ⟨hp, hn⟩ := hv
  cases v with
  | string s => exact .quote hp
  | number x => exact Double.nests_text (hn x List.mem_cons_self)
  | param name => exact nests_name hp

theorem Literal.nests_listText {items : List Literal} (hi : ∀ l ∈ items, l.toScalar.Legible) :
    Nests (listText items) i i := by
  have hm : Nests (",".intercalate (items.map text)) i i := by
    apply Nests.intercalate (fun _ => rfl)
    rw [List.forall_mem_map]
    intro l hl
    have ht : l.toScalar.text = l.text := by cases l <;> rfl
    exact ht ▸ Scalar.nests_text (hi l hl)
  exact .append (.append (fun _ => rfl) hm) fun _ => rfl

theorem Target.nests_text {t : Target} (ht : t.Legible) : Nests t.text i i := by
  cases t with
  | point x y =>
    exact .append (.append (.append (.append (fun _ => rfl) (Double.nests_text ht.1).deeper)
      fun _ => rfl) (Double.nests_text ht.2).deeper) fun _ => rfl
  | field f => exact Field.nests_text ht

theorem nests_token_comparison (op : Comparison) : Nests (Token.token op) i i := by
  cases op <;> exact fun _ => rfl

theorem nests_token_setOperation (op : SetOperation) : Nests (Token.token op) i i := by
  cases op <;> exact fun _ => rfl

theorem nests_code (unit : TimeUnit) : Nests (stringRule unit.code) i i := by
  apply Nests.quote
  cases unit <;> decide

end Texts

namespace Assertion

/-- Parentheses that are open where the field stands. -/
def depth : Assertion → Nat
  | .within .. | .isInteger | .isFloat => 1
  | _ => 0

theorem nests_opening (a : Assertion) : Nests a.opening 0 a.depth := by
  cases a with
  | within unit x =>
    have ho : Nests "(request.time.toMillis() - " 0 1 := fun _ => rfl
    exact ho
  | _ => exact fun _ => rfl

theorem nests_comparisonText (op : Comparison) {right : String} (hr : Nests right 0 0) :
    Nests (comparisonText op right) 0 0 :=
  .append (.append (.append (fun _ => rfl) (nests_token_comparison op)) fun _ => rfl) hr

theorem nests_setClosing (op : SetOperation) {items : List Literal}
    (hi : ∀ l ∈ items, l.toScalar.Legible) : Nests (setClosing op items) 0 0 := by
  have ho : Nests ("." ++ Token.token op ++ "(") 0 1 :=
    .append (.append (fun _ => rfl) (nests_token_setOperation op)) fun _ => rfl
  exact .append (fun _ => rfl) (.append (ho.append (Literal.nests_listText hi)) fun _ => rfl)

theorem nests_closing {field : String} (hf : Nests field 0 0) {a : Assertion} (ha : a.Legible) :
    Nests (a.closing field) a.depth 0 := by
  cases a with
  | isTrue => exact fun _ => rfl
  | within unit x =>
    have ho : Nests "() * 1000) < duration.value(" 1 1 := fun _ => rfl
    have hn : Nests ("() * 1000) < duration.value(" ++ x.text ++ ", ") 1 1 :=
      .append (ho.append (Double.nests_text ha)) fun _ => rfl
    exact .append (hn.append (nests_code unit)) fun _ => rfl
  | compare op value => exact nests_comparisonText op (Scalar.nests_text ha)
  | oneOf items => exact .append (fun _ => rfl) (Literal.nests_listText ha)
  | isInteger | isFloat => exact .append (fun _ => rfl) hf
  | size op x => exact .append (fun _ => rfl) (nests_comparisonText op (Double.nests_text ha))
  | distance target op x =>
    have ht : Nests ("(" ++ target.text ++ ")") 0 0 :=
      .append (.append (fun _ => rfl) (Target.nests_text ha.1).deeper) fun _ => rfl
    exact ht.append (nests_comparisonText op (Double.nests_text ha.2))
  | keys op names => exact nests_setClosing op (Literal.legible_strings ha)
  | values op items | set op items => exact nests_setClosing op ha
  | element index op value =>
    have hi : Nests (toString index.toNat) 0 0 :=
      .of_not_mark fun c hc => not_mark_of_class rfl rfl rfl (isDigit_of_mem_toString c hc)
    exact .append (.append (.append (fun _ => rfl) hi) fun _ => rfl)
      (nests_comparisonText op (Scalar.nests_text ha))

end Assertion

theorem Meaning.nests_text {m : Meaning} (hm : m.Legible) : Nests m.text 0 0 := by
  obtain ⟨hf, ha⟩ := hm
  have ho := (m.assertion.nests_opening).append (Field.nests_text (hf.called m.assertion))
  exact ho.append (Assertion.nests_closing (Field.nests_text hf) ha)

end AccessRules
