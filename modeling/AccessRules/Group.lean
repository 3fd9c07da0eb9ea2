import AccessRules.Condition

/-! Groups of conditions. -/
namespace AccessRules

mutual

/-- What a group combines: a condition, or a nested group. -/
inductive Member where
  | condition (c : Condition)
  | group (connective : Connective) (members : Members)

/-- One or more members, in order. -/
inductive Members where
  | last (m : Member)
  | cons (m : Member) (ms : Members)

end

/-- A group at the top of a rule. -/
structure Group where
  connective : Connective
  members : Members

namespace Members

def toList : Members → List Member
  | .last m => [m]
  | .cons m ms => m :: ms.toList

def ofList? : List Member → Option Members
  | [] => none
  | m :: ms => some (go m ms)
where
  go (m : Member) : List Member → Members
    | [] => .last m
    | n :: ns => .cons m (go n ns)

def length : Members → Nat
  | .last _ => 1
  | .cons _ ms => ms.length + 1

theorem length_toList (ms : Members) : ms.toList.length = ms.length := by
  match ms with
  | .last _ => rfl
  | .cons _ ms => simp [toList, length, length_toList ms]

theorem toList_ne_nil (ms : Members) : ms.toList ≠ [] := by
  cases ms <;> simp [toList]

end Members

mutual

/-- Levels of groups. -/
def Member.depth : Member → Nat
  | .condition _ => 0
  | .group _ ms => ms.depth + 1

def Members.depth : Members → Nat
  | .last m => m.depth
  | .cons m ms => max m.depth ms.depth

end

mutual

/-- Equality of the trees, with numbers compared as numbers. -/
def Member.beq : Member → Member → Bool
  | .condition c, .condition d => c == d
  | .group p ms, .group q ns => p == q && ms.beq ns
  | _, _ => false

def Members.beq : Members → Members → Bool
  | .last m, .last n => m.beq n
  | .cons m ms, .cons n ns => m.beq n && ms.beq ns
  | _, _ => false

end

instance : BEq Member := ⟨Member.beq⟩

namespace Group

def toMember (g : Group) : Member := .group g.connective g.members

def length (g : Group) : Nat := g.members.length

/-- Levels of groups, this one included. -/
def depth (g : Group) : Nat := g.toMember.depth

instance : BEq Group := ⟨fun g h => g.toMember == h.toMember⟩

end Group

/-- One line on a member: its category, or the shape of the group. -/
def Member.summary : Member → String
  | .condition c => "condition " ++ Token.token c.category
  | .group connective ms =>
    "group " ++ Token.token connective ++ " len " ++ toString ms.length ++
      " depth " ++ toString (Member.group connective ms).depth

end AccessRules
