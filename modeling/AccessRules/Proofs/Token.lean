import AccessRules.Operator

/-! Tokens determine the members of their enumerations. -/
namespace AccessRules

/-- Every member of the enumeration is found by its token. -/
class Token.Exact (α : Type) [Token α] : Prop where
  ofString?_token : ∀ a : α, Token.ofString? (Token.token a) = some a

instance : Token.Exact Comparison := ⟨fun op => by cases op <;> rfl⟩

instance : Token.Exact SetOperation := ⟨fun op => by cases op <;> rfl⟩

instance : Token.Exact TimeUnit := ⟨fun unit => by cases unit <;> rfl⟩

instance : Token.Exact Connective := ⟨fun c => by cases c <;> rfl⟩

theorem Token.token_inj {α : Type} [Token α] [Token.Exact α] {a b : α}
    (h : Token.token a = Token.token b) : a = b := by
  have hf := congrArg (Token.ofString? : String → Option α) h
  rw [Token.Exact.ofString?_token, Token.Exact.ofString?_token] at hf
  exact Option.some.inj hf

theorem TimeUnit.code_inj {a b : TimeUnit} (h : a.code = b.code) : a = b := by
  revert h
  cases a <;> cases b <;> decide

end AccessRules
