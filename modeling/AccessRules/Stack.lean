import AccessRules.Load
import AccessRules.Tuple.Writer

/-! Building groups on a stack of members. -/
namespace AccessRules

/-- Members, the top one first. -/
abbrev Stack := List Member

inductive Refusal where
  | underflow
  | malformed (cause : Malformed)

/-- How a member is read back from its tuple form. -/
inductive Channel where
  | text
  | value
deriving DecidableEq

inductive Step where
  /-- Puts a member on top, if it could be made. -/
  | push (member : Except Malformed Member)
  /-- Replaces the top members by a group of them, the lowest first. -/
  | join (connective : Connective) (count : Nat)
  /-- Puts the top member into a group of its own, a number of times. -/
  | wrap (connective : Connective) (times : Nat)
  | dup
  | drop
  | swap
  /-- Compares the top two members. -/
  | equal
  | rule
  | tuple
  | reread (through : Channel)

inductive Answer where
  | done
  | bool (b : Bool)
  | text (s : String)

/-- The member in its own group, a number of times. -/
def Member.wrap (connective : Connective) : Nat → Member → Member
  | 0, m => m
  | n + 1, m => Member.wrap connective n (.group connective (.last m))

/-- The member read back from its own tuple form. -/
def Member.reread (through : Channel) (m : Member) : Except Malformed Member :=
  match through, m with
  | .value, .condition c => .condition <$> Condition.ofJson c.toJson
  | .value, m => Group.toMember <$> Group.ofJson m.toJson
  | .text, .condition c => .condition <$> Condition.parse c.toJson.text
  | .text, m => Group.toMember <$> Group.parse m.toJson.text

/-- The stack after a step, with its answer. -/
def Step.apply : Step → Stack → Except Refusal (Answer × Stack)
  | .push member, stack =>
    match member with
    | .ok m => .ok (.done, m :: stack)
    | .error cause => .error (.malformed cause)
  | .join connective count, stack =>
    if stack.length < count then .error .underflow
    else
      match Group.ofList connective (stack.take count).reverse with
      | .ok g => .ok (.done, g.toMember :: stack.drop count)
      | .error cause => .error (.malformed cause)
  | .wrap connective times, m :: stack => .ok (.done, m.wrap connective times :: stack)
  | .dup, m :: stack => .ok (.done, m :: m :: stack)
  | .drop, _ :: stack => .ok (.done, stack)
  | .swap, m :: n :: stack => .ok (.done, n :: m :: stack)
  | .equal, m :: n :: stack => .ok (.bool (m == n), m :: n :: stack)
  | .rule, m :: stack =>
    match m.rule with
    | .ok text => .ok (.text text, m :: stack)
    | .error cause => .error (.malformed cause)
  | .tuple, m :: stack => .ok (.text m.toJson.text, m :: stack)
  | .reread through, m :: stack =>
    match m.reread through with
    | .ok n => .ok (.done, n :: stack)
    | .error cause => .error (.malformed cause)
  | _, _ => .error .underflow

/-- Runs the steps in order. A refused step leaves the stack as it was. Each step yields its answer
and the stack after it. -/
def Step.run : List Step → Stack → List (Except Refusal Answer × Stack)
  | [], _ => []
  | step :: steps, stack =>
    match step.apply stack with
    | .ok (answer, next) => (.ok answer, next) :: Step.run steps next
    | .error refusal => (.error refusal, stack) :: Step.run steps stack

end AccessRules
