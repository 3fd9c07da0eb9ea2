/-! Faults of JSON text and where they are reported. -/
namespace AccessRules.Json

/-- What is wrong with a JSON text. -/
inductive Cause where
  | endInValue
  | endInList
  | endInObject
  | endInString
  | noValue
  | badWord
  | noListSeparator
  | noObjectSeparator
  | noColon
  | trailingComma
  | keyNotString
  | controlCharacter
  | badEscape
  | loneSurrogate
  | brokenSurrogatePair
  | badNumber
  | outOfRange
  | tooDeep
  | trailingCharacters
deriving DecidableEq

def Cause.text : Cause → String
  | .endInValue => "EOF while parsing a value"
  | .endInList => "EOF while parsing a list"
  | .endInObject => "EOF while parsing an object"
  | .endInString => "EOF while parsing a string"
  | .noValue => "expected value"
  | .badWord => "expected ident"
  | .noListSeparator => "expected `,` or `]`"
  | .noObjectSeparator => "expected `,` or `\x7d`"
  | .noColon => "expected `:`"
  | .trailingComma => "trailing comma"
  | .keyNotString => "key must be a string"
  | .controlCharacter => "control character (\\u0000-\\u001F) found while parsing a string"
  | .badEscape => "invalid escape"
  | .loneSurrogate => "lone leading surrogate in hex escape"
  | .brokenSurrogatePair => "unexpected end of hex escape"
  | .badNumber => "invalid number"
  | .outOfRange => "number out of range"
  | .tooDeep => "recursion limit exceeded"
  | .trailingCharacters => "trailing characters"

/-- The length of the characters in UTF-8. -/
def byteCount : List Char → Nat
  | [] => 0
  | c :: cs => c.utf8Size + byteCount cs

/-- A cause, with the number of bytes that follow the place it is reported at. -/
structure Fault where
  cause : Cause
  unread : Nat
deriving DecidableEq

/-- A fault before the remaining characters. -/
def Fault.before (cause : Cause) (rest : List Char) : Fault := ⟨cause, byteCount rest⟩

/-- A fault after the first byte of the remaining characters, or at the end if there is none. -/
def Fault.onto (cause : Cause) (rest : List Char) : Fault := ⟨cause, byteCount rest - 1⟩

/-- A place in a text; the column counts the bytes since the start of the line. -/
structure Position where
  line : Nat
  column : Nat
deriving DecidableEq

/-- The place `offset` bytes after the given one. -/
def Position.advance (p : Position) : List Char → Nat → Position
  | [], _ => p
  | c :: cs, offset =>
    if offset < c.utf8Size then ⟨p.line, p.column + offset⟩
    else if c = '\n' then Position.advance ⟨p.line + 1, 0⟩ cs (offset - c.utf8Size)
    else Position.advance ⟨p.line, p.column + c.utf8Size⟩ cs (offset - c.utf8Size)

/-- A text that is not JSON. -/
structure Error where
  cause : Cause
  position : Position
deriving DecidableEq

def Error.message (e : Error) : String :=
  e.cause.text ++ " at line " ++ toString e.position.line ++ " column " ++ toString e.position.column

/-- The error of a fault met in reading the whole text. -/
def Fault.error (text : List Char) (fault : Fault) : Error :=
  ⟨fault.cause, Position.advance ⟨1, 0⟩ text (byteCount text - fault.unread)⟩

end AccessRules.Json
