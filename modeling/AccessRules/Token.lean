/-! Enumerations that are written as tokens. -/
namespace AccessRules

/-- An enumeration, in declaration order, with the token of each member. -/
class Token (α : Type) where
  all : List α
  token : α → String

/-- The member with exactly this token. -/
def Token.ofString? {α : Type} [Token α] (s : String) : Option α :=
  Token.all.find? (fun a => decide (Token.token a = s))

theorem Token.token_of_ofString? {α : Type} [Token α] {s : String} {a : α}
    (h : Token.ofString? s = some a) : Token.token a = s := by
  simpa using List.find?_some h

end AccessRules
