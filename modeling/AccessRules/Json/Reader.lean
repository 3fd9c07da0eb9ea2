import AccessRules.Json.Reader.Numeral
import AccessRules.Json.Reader.Quoted

/-! Reading JSON text. -/
namespace AccessRules.Json

def isBlank (c : Char) : Bool := c == ' ' || c == '\t' || c == '\n' || c == '\r'

def skipBlanks (cs : List Char) : List Char := cs.dropWhile isBlank

def readWord : List Char → List Char → Except Fault (List Char)
  | [], cs => .ok cs
  | _ :: _, [] => .error (.before .endInValue [])
  | w :: word, c :: cs => if c = w then readWord word cs else .error (.onto .badWord (c :: cs))

/-- A quoted key, a colon and a value; the opening quote has been read. -/
def readEntry (value : List Char → Except Fault (Json × List Char)) (cs : List Char) :
    Except Fault ((String × Json) × List Char) := do
  let (key, cs) ← readQuoted cs
  match skipBlanks cs with
  | ':' :: cs =>
    let (v, cs) ← value cs
    return ((String.ofList key, v), cs)
  | [] => throw (.onto .endInObject [])
  | cs => throw (.onto .noColon cs)

/-- The items after the first, to the closing bracket. Every item takes up text, so its length bounds
their number. -/
def readItems (value : List Char → Except Fault (Json × List Char)) :
    Nat → List Char → Except Fault (List Json × List Char)
  | 0, cs => .error (.onto .endInList cs)
  | bound + 1, cs =>
    match skipBlanks cs with
    | [] => .error (.onto .endInList [])
    | ']' :: cs => .ok ([], cs)
    | ',' :: cs =>
      match skipBlanks cs with
      | [] => .error (.onto .endInValue [])
      | ']' :: cs => .error (.onto .trailingComma (']' :: cs))
      | cs => do
        let (v, cs) ← value cs
        let (vs, cs) ← readItems value bound cs
        return (v :: vs, cs)
    | cs => .error (.onto .noListSeparator cs)

/-- The items of a list, to the closing bracket. -/
def readArray (value : List Char → Except Fault (Json × List Char)) (cs : List Char) :
    Except Fault (List Json × List Char) :=
  match skipBlanks cs with
  | [] => .error (.onto .endInList [])
  | ']' :: cs => .ok ([], cs)
  | cs => do
    let (v, cs) ← value cs
    let (vs, cs) ← readItems value cs.length cs
    return (v :: vs, cs)

/-- The entries after the first, to the closing brace. -/
def readEntries (value : List Char → Except Fault (Json × List Char)) :
    Nat → List Char → Except Fault (List (String × Json) × List Char)
  | 0, cs => .error (.onto .endInObject cs)
  | bound + 1, cs =>
    match skipBlanks cs with
    | [] => .error (.onto .endInObject [])
    | '\x7d' :: cs => .ok ([], cs)
    | ',' :: cs =>
      match skipBlanks cs with
      | [] => .error (.onto .endInValue [])
      | '"' :: cs => do
        let (e, cs) ← readEntry value cs
        let (es, cs) ← readEntries value bound cs
        return (e :: es, cs)
      | '\x7d' :: cs => .error (.onto .trailingComma ('\x7d' :: cs))
      | cs => .error (.onto .keyNotString cs)
    | cs => .error (.onto .noObjectSeparator cs)

/-- The entries of an object, to the closing brace. -/
def readObject (value : List Char → Except Fault (Json × List Char)) (cs : List Char) :
    Except Fault (List (String × Json) × List Char) :=
  match skipBlanks cs with
  | [] => .error (.onto .endInObject [])
  | '\x7d' :: cs => .ok ([], cs)
  | '"' :: cs => do
    let (e, cs) ← readEntry value cs
    let (es, cs) ← readEntries value cs.length cs
    return (e :: es, cs)
  | cs => .error (.onto .keyNotString cs)

/-- The value at the start of a text, with at most the given number of nested lists and objects. -/
def readValue : Nat → List Char → Except Fault (Json × List Char)
  | depth, cs =>
    match skipBlanks cs with
    | [] => .error (.onto .endInValue [])
    | c :: cs =>
      if c = 'n' then return (.null, ← readWord ['u', 'l', 'l'] cs)
      else if c = 't' then return (.bool true, ← readWord ['r', 'u', 'e'] cs)
      else if c = 'f' then return (.bool false, ← readWord ['a', 'l', 's', 'e'] cs)
      else if c = '"' then do
        let (found, cs) ← readQuoted cs
        return (.string (String.ofList found), cs)
      else if c = '-' ∨ c.isDigit then do
        let (n, cs) ← readNumber (c :: cs)
        return (.number n, cs)
      else if c = '[' ∨ c = '\x7b' then
        match depth with
        | 0 => .error (.onto .tooDeep (c :: cs))
        | depth + 1 =>
          if c = '[' then do
            let (items, cs) ← readArray (readValue depth) cs
            return (.array items, cs)
          else do
            let (entries, cs) ← readObject (readValue depth) cs
            return (ofEntries entries, cs)
      else .error (.onto .noValue (c :: cs))

def maxDepth : Nat := 127

/-- The value at the start of a text, and what follows it. -/
def readFirst (text : String) : Except Error (Json × List Char) :=
  (readValue maxDepth text.toList).mapError (Fault.error text.toList)

/-- Nothing but blanks may follow the value. -/
def readEnd (text : String) (rest : List Char) : Except Error Unit :=
  match skipBlanks rest with
  | [] => .ok ()
  | rest => .error (Fault.error text.toList (.onto .trailingCharacters rest))

def read (text : String) : Except Error Json := do
  let (v, rest) ← readFirst text
  readEnd text rest
  return v

end AccessRules.Json
