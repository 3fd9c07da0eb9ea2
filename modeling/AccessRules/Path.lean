/-! Paths to documents and to the places inside them. -/
namespace AccessRules

/-- One step of a path: a fixed name, or a name that the surrounding rule binds. -/
inductive Segment where
  | literal (name : String)
  | param (name : String)
deriving DecidableEq

namespace Segment

def name : Segment → String
  | .literal name | .param name => name

def isParam : Segment → Bool
  | .literal _ => false
  | .param _ => true

/-- A parameter stands in braces. -/
def display : Segment → String
  | .literal name => name
  | .param name => "\x7b" ++ name ++ "\x7d"

end Segment

/-- A sequence of one or more segments. -/
structure Path where
  segments : List Segment
  nonempty : segments ≠ []
deriving DecidableEq

namespace Path

def length (p : Path) : Nat := p.segments.length

/-- The segments between slashes, with parameters in braces. -/
def display (p : Path) : String := "/".intercalate (p.segments.map Segment.display)

end Path

end AccessRules
