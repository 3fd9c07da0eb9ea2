import AccessRules.Proofs.Rule.Legible
import AccessRules.Proofs.Rule.Number
import AccessRules.Proofs.Token

/-! The parts of rule text can be read back, given how the text goes on after them. -/
namespace AccessRules

theorem decodes_name : Decodes (fun s : String => s) (isName · = true) (Stops isNameChar) :=
  .of_run (fun _ ha => isNameChar_of_mem ha) fun _ _ _ _ h => h

theorem first_name {s : String} (hs : isName s = true) :
    ∃ c, first s = some c ∧ isNameStart c = true := by
  obtain ⟨c, cs, hc, hn⟩ := exists_of_isName hs
  refine ⟨c, ?_, hn⟩
  rw [first, hc, List.head?_cons]

theorem decodes_quoted : Decodes stringRule ('"' ∉ ·.toList) fun _ => True := by
  intro a b r u ha hb _ _ h
  simp only [stringRule, String.append_assoc] at h
  have hl := congrArg String.toList ((String.append_right_inj _).mp h)
  simp only [String.toList_append] at hl
  obtain ⟨hab, hru⟩ := mark_cancel ha hb hl
  exact ⟨String.toList_inj.mp hab, String.toList_inj.mp hru⟩

theorem first_quoted (s : String) : first (stringRule s) = some '"' :=
  first_append (first_append rfl s) _

theorem decodes_number : Decodes Double.text Double.IsSettled (Stops isNumberChar) := by
  apply Decodes.of_run
  · exact fun x hx => Double.isNumberChar_of_mem_text hx.1
  · intro x y hx hy h
    rw [← hx.2, ← hy.2]
    exact Double.settled_eq_of_text_eq hx.1 hy.1 h

theorem first_number {x : Double} (hx : x.IsSettled) :
    ∃ c, first x.text = some c ∧ isNumberChar c = true := by
  obtain ⟨c, cs, hc, -⟩ := Double.text_eq_cons hx.1
  refine ⟨c, ?_, Double.isNumberChar_of_mem_text hx.1 c (hc ▸ List.mem_cons_self)⟩
  rw [first, hc, List.head?_cons]

theorem decodes_index :
    Decodes (fun i : UInt64 => toString i.toNat) (fun _ => True) (Stops Char.isDigit) := by
  apply Decodes.of_run
  · exact fun _ _ => isDigit_of_mem_toString
  · exact fun i j _ _ h => UInt64.toNat_inj.mp (toString_inj h)

theorem not_isNameStart_of_isNumberChar {c : Char} (h : isNumberChar c = true) :
    isNameStart c = false := by
  simp only [isNumberChar, Bool.or_eq_true, beq_iff_eq] at h
  rcases h with (h | rfl) | rfl
  · exact not_isNameStart_of_isDigit h
  · rfl
  · rfl

/-- The characters that start an operand of the same kind. -/
def Scalar.Starts : Scalar → Char → Prop
  | .string _, c => c = '"'
  | .number _, c => isNumberChar c = true
  | .param _, c => isNameStart c = true

theorem Scalar.first_text {v : Scalar} (hv : v.Legible) :
    ∃ c, first v.text = some c ∧ v.Starts c := by
  cases v with
  | string s => exact ⟨'"', first_quoted s, rfl⟩
  | number x => exact first_number (hv.2 x List.mem_cons_self)
  | param name => exact first_name hv.1

theorem Scalar.ctorIdx_eq_of_starts {v w : Scalar} {c : Char} (hv : v.Starts c)
    (hw : w.Starts c) : v.ctorIdx = w.ctorIdx := by
  have hq : isNumberChar '"' = false := rfl
  have hs : isNameStart '"' = false := rfl
  have hn : isNumberChar c = true → isNameStart c = false := not_isNameStart_of_isNumberChar
  cases v <;> cases w <;> simp_all [Starts, Scalar.ctorIdx]

theorem Scalar.text_inj {v w : Scalar} (hv : v.Legible) (hw : w.Legible) (h : v.text = w.text) :
    v = w := by
  obtain ⟨c, hc, hvc⟩ := first_text hv
  obtain ⟨d, hd, hwd⟩ := first_text hw
  rw [h, hd] at hc
  obtain rfl := Option.some.inj hc
  have hi := ctorIdx_eq_of_starts hvc hwd
  cases v with
  | string s =>
    cases w with
    | string t => rw [decodes_quoted.eq_of_text_eq trivial hv.1 hw.1 h]
    | _ => cases hi
  | number x =>
    cases w with
    | number y =>
      rw [decodes_number.eq_of_text_eq (stops_empty _) (hv.2 x List.mem_cons_self)
        (hw.2 y List.mem_cons_self) h]
    | _ => cases hi
  | param a =>
    cases w with
    | param b => exact congrArg Scalar.param h
    | _ => cases hi

namespace Literal

theorem first_text {l : Literal} (hl : l.toScalar.Legible) :
    ∃ c, first l.text = some c ∧ l.toScalar.Starts c := by
  have ht : l.toScalar.text = l.text := by
    cases l <;> rfl
  rw [← ht]
  exact Scalar.first_text hl

theorem decodes_text : Decodes Literal.text (·.toScalar.Legible) (Stops isNumberChar) := by
  intro a b r u ha hb hr hu h
  obtain ⟨c, hc, hac⟩ := first_text ha
  obtain ⟨d, hd, hbd⟩ := first_text hb
  have hcd := first_append hc r
  rw [h, first_append hd u] at hcd
  obtain rfl := Option.some.inj hcd
  have hi := Scalar.ctorIdx_eq_of_starts hac hbd
  cases a with
  | string s =>
    cases b with
    | string t =>
      obtain ⟨rfl, hru⟩ := decodes_quoted ha.1 hb.1 trivial trivial h
      exact ⟨rfl, hru⟩
    | number y => cases hi
  | number x =>
    cases b with
    | string t => cases hi
    | number y =>
      obtain ⟨rfl, hru⟩ := decodes_number (ha.2 x List.mem_cons_self) (hb.2 y List.mem_cons_self)
        hr hu h
      exact ⟨rfl, hru⟩

theorem decodes_listText :
    Decodes listText (fun items => ∀ l ∈ items, l.toScalar.Legible) fun _ => True := by
  have hne (r u : String) : "," ++ r ≠ "]" ++ u :=
    ne_of_first (first_append rfl r) (first_append rfl u) (by decide)
  have hstart (l : Literal) (r u : String) (hl : l.toScalar.Legible) : l.text ++ r ≠ "]" ++ u := by
    obtain ⟨c, hc, hlc⟩ := first_text hl
    apply ne_of_first (first_append hc r) (first_append rfl u)
    rintro rfl
    cases l <;> cases hlc
  have hd := Decodes.list decodes_text (stops_append rfl rfl) (stops_append rfl rfl) hne hstart
  intro xs ys r u hx hy hr hu h
  simp only [listText, String.append_assoc] at h
  apply hd hx hy hr hu
  simp only [String.append_assoc]
  exact (String.append_right_inj _).mp h

end Literal

/-- The text neither continues a path nor its last name. -/
def StopsPath (s : String) : Prop :=
  Stops isNameChar s ∧ first s ≠ some '.' ∧ ∀ t, s = "[" ++ t → Stops isNameStart t

theorem stopsPath_empty : StopsPath "" := by
  refine ⟨trivial, by decide, ?_⟩
  intro t ht
  have hf := congrArg first ht
  rw [first_append (rfl : first "[" = some '[')] at hf
  cases hf

theorem stopsPath_of_first {s : String} {c : Char} (hs : first s = some c)
    (hc : isNameChar c = false) (hdot : c ≠ '.') (hbracket : c ≠ '[') : StopsPath s := by
  refine ⟨stops_of_first hs hc, ?_, ?_⟩
  · rw [hs]
    exact fun h => hdot (Option.some.inj h)
  · intro t ht
    exact absurd ht (ne_of_first hs (first_append rfl t) hbracket)

theorem stopsPath_index (n : Nat) (t : String) : StopsPath ("[" ++ (toString n ++ t)) := by
  have hf : first ("[" ++ (toString n ++ t)) = some '[' := first_append rfl _
  refine ⟨stops_of_first hf rfl, ?_, ?_⟩
  · rw [hf]
    decide
  intro u hu
  obtain ⟨c, cs, hc⟩ := List.exists_cons_of_ne_nil (@Nat.toDigits_ne_nil n 10)
  rw [← toList_toString] at hc
  have hn : first (toString n) = some c := by rw [first, hc, List.head?_cons]
  rw [← (String.append_right_inj _).mp hu]
  apply stops_append hn
  exact not_isNameStart_of_isDigit (isDigit_of_mem_toString c (hc ▸ List.mem_cons_self))

namespace Segment

theorem stops_rules {ss : List Segment} {r : String} (hr : StopsPath r) :
    Stops isNameChar (String.join (ss.map Segment.rule) ++ r) := by
  cases ss with
  | nil => simpa using hr.1
  | cons s ss =>
    rw [List.map_cons, String.join_cons, String.append_assoc]
    rcases s.first_rule with h | h
    · exact stops_append h rfl _
    · exact stops_append h rfl _

/-- A segment starts no text at which a path stops. -/
theorem rule_append_ne {s : Segment} (hs : isName s.name = true) {r : String} (hr : StopsPath r)
    (t : String) : s.rule ++ t ≠ r := by
  rintro rfl
  cases s with
  | literal name => exact hr.2.1 (first_append (first_append rfl name) t)
  | param name =>
    obtain ⟨c, hc, hn⟩ := first_name hs
    have hb : (Segment.param name).rule ++ t = "[" ++ (name ++ ("]" ++ t)) := by
      simp only [rule, String.append_assoc]
    have hst := stops_iff.mp (hr.2.2 _ hb) c (first_append hc _)
    rw [hn] at hst
    cases hst

theorem rule_literal_ne_param (a b r u : String) :
    (Segment.literal a).rule ++ r ≠ (Segment.param b).rule ++ u :=
  ne_of_first (first_append (first_append rfl a) r)
    (first_append (first_append (first_append rfl b) _) u) (by decide)

theorem decodes_rule : Decodes Segment.rule (isName ·.name = true) (Stops isNameChar) := by
  intro s t r u hs ht hr hu h
  cases s with
  | literal a =>
    cases t with
    | literal b =>
      simp only [rule, String.append_assoc] at h
      obtain ⟨rfl, hru⟩ := decodes_name hs ht hr hu ((String.append_right_inj _).mp h)
      exact ⟨rfl, hru⟩
    | param b => exact absurd h (rule_literal_ne_param a b r u)
  | param a =>
    cases t with
    | literal b => exact absurd h.symm (rule_literal_ne_param b a u r)
    | param b =>
      simp only [rule, String.append_assoc] at h
      obtain ⟨rfl, hru⟩ := decodes_name hs ht (stops_append rfl rfl _) (stops_append rfl rfl _)
        ((String.append_right_inj _).mp h)
      exact ⟨rfl, (String.append_right_inj _).mp hru⟩

theorem decodes_rules :
    Decodes (fun ss : List Segment => String.join (ss.map Segment.rule))
      (fun ss => ∀ s ∈ ss, isName s.name = true) StopsPath := by
  intro ss ts r u hs ht hr hu h
  induction ss generalizing ts with
  | nil =>
    cases ts with
    | nil => exact ⟨rfl, by simpa using h⟩
    | cons t ts =>
      simp only [List.map_nil, String.join_nil, String.empty_append, List.map_cons,
        String.join_cons, String.append_assoc] at h
      exact absurd h.symm (rule_append_ne (ht t List.mem_cons_self) hr _)
  | cons s ss ih =>
    simp only [List.map_cons, String.join_cons, String.append_assoc] at h
    rw [List.forall_mem_cons] at hs
    cases ts with
    | nil =>
      simp only [List.map_nil, String.join_nil, String.empty_append] at h
      exact absurd h (rule_append_ne hs.1 hu _)
    | cons t ts =>
      simp only [List.map_cons, String.join_cons, String.append_assoc] at h
      rw [List.forall_mem_cons] at ht
      obtain ⟨rfl, hst⟩ := decodes_rule hs.1 ht.1 (stops_rules hr) (stops_rules hu) h
      obtain ⟨rfl, hru⟩ := ih hs.2 ht.2 hst
      exact ⟨rfl, hru⟩

/-- A segment of a document path starts with its name or with an interpolation. -/
theorem first_documentRule {s : Segment} (hs : isName s.name = true) :
    ∃ c, first s.documentRule = some c ∧ (isNameStart c = true ∨ c = '$') := by
  cases s with
  | literal name =>
    obtain ⟨c, hc, hn⟩ := first_name hs
    exact ⟨c, hc, Or.inl hn⟩
  | param name => exact ⟨'$', first_append (first_append rfl name) _, Or.inr rfl⟩

theorem documentRule_literal_ne_param {a : String} (ha : isName a = true) (b r u : String) :
    (Segment.literal a).documentRule ++ r ≠ (Segment.param b).documentRule ++ u := by
  obtain ⟨c, hc, hn⟩ := first_name ha
  apply ne_of_first (first_append hc r) (first_append (first_append (first_append rfl b) _) u)
  rintro rfl
  cases hn

theorem decodes_documentRule :
    Decodes Segment.documentRule (isName ·.name = true) (Stops isNameChar) := by
  intro s t r u hs ht hr hu h
  cases s with
  | literal a =>
    cases t with
    | literal b =>
      obtain ⟨rfl, hru⟩ := decodes_name hs ht hr hu h
      exact ⟨rfl, hru⟩
    | param b => exact absurd h (documentRule_literal_ne_param hs b r u)
  | param a =>
    cases t with
    | literal b => exact absurd h.symm (documentRule_literal_ne_param ht a u r)
    | param b =>
      simp only [documentRule, String.append_assoc] at h
      obtain ⟨rfl, hru⟩ := decodes_name hs ht (stops_append rfl rfl _) (stops_append rfl rfl _)
        ((String.append_right_inj _).mp h)
      exact ⟨rfl, (String.append_right_inj _).mp hru⟩

end Segment

theorem Path.decodes_documents :
    Decodes (fun p : Path => "/".intercalate (p.segments.map Segment.documentRule) ++ ")")
      (fun p => ∀ s ∈ p.segments, isName s.name = true) fun _ => True := by
  have hne (r u : String) : "/" ++ r ≠ ")" ++ u :=
    ne_of_first (first_append rfl r) (first_append rfl u) (by decide)
  have hstart (s : Segment) (r u : String) (hs : isName s.name = true) :
      s.documentRule ++ r ≠ ")" ++ u := by
    obtain ⟨c, hc, hn⟩ := Segment.first_documentRule hs
    apply ne_of_first (first_append hc r) (first_append rfl u)
    rintro rfl
    rcases hn with hn | hn <;> cases hn
  have hd := Decodes.list Segment.decodes_documentRule (stops_append rfl rfl)
    (stops_append rfl rfl) hne hstart
  intro p q r u hp hq hr hu h
  obtain ⟨hpq, hru⟩ := hd hp hq hr hu h
  exact ⟨Path.eq_of_segments_eq hpq, hru⟩

theorem Path.decodes_rule :
    Decodes Path.rule (fun p => ∀ s ∈ p.segments, isName s.name = true) StopsPath := by
  intro p q r u hp hq hr hu h
  obtain ⟨hpq, hru⟩ := Segment.decodes_rules hp hq hr hu h
  exact ⟨Path.eq_of_segments_eq hpq, hru⟩

theorem Path.rule_ne_ruleIn (p document q : Path) (r u : String) :
    p.rule ++ r ≠ document.ruleIn q ++ u := by
  have hd := first_append (document.first_ruleIn q) u
  rcases p.first_rule with h | h
  · exact ne_of_first (first_append h r) hd (by decide)
  · exact ne_of_first (first_append h r) hd (by decide)

theorem Path.ruleIn_append (document p : Path) (r : String) :
    document.ruleIn p ++ r = "get(/databases/$(database)/documents/" ++
      (("/".intercalate (document.segments.map Segment.documentRule) ++ ")") ++
        (".data" ++ (p.rule ++ r))) := by
  have hc : ").data" = ")" ++ ".data" := rfl
  change _ ++ _ ++ ").data" ++ _ ++ r = _
  rw [hc]
  simp only [String.append_assoc]

theorem Field.decodes_text : Decodes Field.text Field.Legible StopsPath := by
  intro f g r u hf hg hr hu h
  cases f with
  | here p =>
    cases g with
    | here q =>
      obtain ⟨rfl, hru⟩ := Path.decodes_rule hf.2 hg.2 hr hu h
      exact ⟨rfl, hru⟩
    | elsewhere e q => exact absurd h (p.rule_ne_ruleIn e q r u)
    | updated q => exact hg.1.elim
  | elsewhere d p =>
    cases g with
    | here q => exact absurd h.symm (q.rule_ne_ruleIn d p u r)
    | elsewhere e q =>
      have hp := List.forall_mem_append.mp hf.2
      have hq := List.forall_mem_append.mp hg.2
      change d.ruleIn p ++ r = e.ruleIn q ++ u at h
      rw [Path.ruleIn_append, Path.ruleIn_append, String.append_right_inj] at h
      obtain ⟨rfl, hpath⟩ := Path.decodes_documents hp.1 hq.1 trivial trivial h
      rw [String.append_right_inj] at hpath
      obtain ⟨rfl, hru⟩ := Path.decodes_rule hp.2 hq.2 hr hu hpath
      exact ⟨rfl, hru⟩
    | updated q => exact hg.1.elim
  | updated p => exact hf.1.elim

namespace Target

theorem pointText_append (x y : Double) (r : String) :
    pointText x y ++ r = "latlng.value(" ++ (x.text ++ (", " ++ (y.text ++ (")" ++ r)))) := by
  change "latlng.value(" ++ _ ++ ", " ++ _ ++ ")" ++ r = _
  simp only [String.append_assoc]

theorem pointText_ne_text {f : Field} (hf : f.IsStored) (x y : Double) (r u : String) :
    pointText x y ++ r ≠ f.text ++ u := by
  rw [pointText_append]
  have hl : first "latlng.value(" = some 'l' := rfl
  rcases Field.first_text hf with h | h | h
  all_goals exact ne_of_first (first_append hl _) (first_append h u) (by decide)

theorem decodes_text : Decodes Target.text Target.Legible StopsPath := by
  intro s t r u hs ht hr hu h
  cases s with
  | point x y =>
    cases t with
    | point v w =>
      change pointText x y ++ r = pointText v w ++ u at h
      rw [pointText_append, pointText_append, String.append_right_inj] at h
      obtain ⟨rfl, hy⟩ := decodes_number hs.1 ht.1 (stops_append rfl rfl _)
        (stops_append rfl rfl _) h
      rw [String.append_right_inj] at hy
      obtain ⟨rfl, hru⟩ := decodes_number hs.2 ht.2 (stops_append rfl rfl _)
        (stops_append rfl rfl _) hy
      exact ⟨rfl, (String.append_right_inj _).mp hru⟩
    | field g => exact absurd h (pointText_ne_text ht.1 x y r u)
  | field f =>
    cases t with
    | point v w => exact absurd h.symm (pointText_ne_text hs.1 v w u r)
    | field g =>
      obtain ⟨rfl, hru⟩ := Field.decodes_text hs ht hr hu h
      exact ⟨rfl, hru⟩

end Target

end AccessRules
