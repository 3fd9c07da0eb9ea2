import AccessRules.Path

/-! Field references. -/
namespace AccessRules

/-- A reference to a stored value. -/
inductive Field where
  /-- A place in the document under evaluation. -/
  | here (path : Path)
  /-- A place in another document. -/
  | elsewhere (document path : Path)
  /-- A place in the document that a pending write would leave. -/
  | updated (path : Path)
deriving DecidableEq

end AccessRules
