import AccessRules.Malformed

/-! Computations that report what they do. -/
namespace AccessRules

/-- What loading and rendering report. -/
inductive Event where
  | loaded (connective : Connective) (members depth : Nat)
  | field (rule : String)
  | condition (category : Category) (rule : String)
  | refused (category : Category) (cause : Malformed)
  | group (connective : Connective) (members : Nat) (rule : String)

/-- The urgency of an event. -/
inductive Level where
  | trace
  | debug
  | warn
deriving DecidableEq

instance : Token Level where
  all := [.trace, .debug, .warn]
  token
    | .trace => "TRACE"
    | .debug => "DEBUG"
    | .warn => "WARN"

/-- A value that an event carries. -/
inductive Attribute where
  | text (s : String)
  | count (n : Nat)
deriving DecidableEq

namespace Event

def level : Event → Level
  | .field _ => .trace
  | .refused .. => .warn
  | _ => .debug

/-- The named values of an event, in order. -/
def attributes : Event → List (String × Attribute)
  | .loaded connective members depth =>
    [("event", .text "Load"), ("phase", .text "Group"),
      ("operation", .text (Token.token connective)),
      ("members", .count members), ("depth", .count depth)]
  | .field rule =>
    [("event", .text "Render"), ("phase", .text "Field"), ("rule", .text rule)]
  | .condition category rule =>
    [("event", .text "Render"), ("phase", .text "Condition"),
      ("category", .text (Token.token category)), ("rule", .text rule)]
  | .refused category cause =>
    [("event", .text "Render"), ("phase", .text "Condition"),
      ("category", .text (Token.token category)), ("error", .text cause.message)]
  | .group connective members rule =>
    [("event", .text "Render"), ("phase", .text "Group"),
      ("operation", .text (Token.token connective)),
      ("members", .count members), ("rule", .text rule)]

end Event

/-- An outcome, with the events up to it. -/
structure Traced (α : Type) where
  events : List Event
  result : Except Malformed α

namespace Traced

variable {α β : Type}

def ofExcept (result : Except Malformed α) : Traced α := ⟨[], result⟩

def emit (event : Event) : Traced Unit := ⟨[event], .ok ()⟩

protected def bind (x : Traced α) (f : α → Traced β) : Traced β :=
  match x.result with
  | .error cause => ⟨x.events, .error cause⟩
  | .ok a =>
    let y := f a
    ⟨x.events ++ y.events, y.result⟩

instance : Monad Traced where
  pure a := ⟨[], .ok a⟩
  bind := Traced.bind

instance : MonadLift (Except Malformed) Traced := ⟨ofExcept⟩

/-- Runs a computation and reports its outcome by one more event. -/
def reporting (x : Traced α) (ok : α → Event) (refused : Malformed → Event) : Traced α :=
  match x.result with
  | .ok a => ⟨x.events ++ [ok a], x.result⟩
  | .error cause => ⟨x.events ++ [refused cause], x.result⟩

/-- The result does not depend on the events. -/
@[simp] theorem result_bind (x : Traced α) (f : α → Traced β) :
    (x >>= f).result = x.result >>= fun a => (f a).result := by
  change (Traced.bind x f).result = _
  unfold Traced.bind
  cases x.result <;> rfl

@[simp] theorem result_pure (a : α) : (pure a : Traced α).result = .ok a := rfl

@[simp] theorem result_emit (event : Event) : (emit event).result = .ok () := rfl

@[simp] theorem result_reporting (x : Traced α) (ok : α → Event) (refused : Malformed → Event) :
    (x.reporting ok refused).result = x.result := by
  unfold reporting
  split <;> simp_all

end Traced

end AccessRules
