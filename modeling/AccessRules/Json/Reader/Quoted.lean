import AccessRules.Json.Fault

/-! Reading quoted JSON strings. -/
namespace AccessRules.Json

def hexDigit? (c : Char) : Option Nat :=
  if '0' ≤ c ∧ c ≤ '9' then some (c.toNat - '0'.toNat)
  else if 'a' ≤ c ∧ c ≤ 'f' then some (c.toNat - 'a'.toNat + 10)
  else if 'A' ≤ c ∧ c ≤ 'F' then some (c.toNat - 'A'.toNat + 10)
  else none

def hexUnit? (a b c d : Char) : Option Nat := do
  return (((← hexDigit? a) * 16 + (← hexDigit? b)) * 16 + (← hexDigit? c)) * 16 + (← hexDigit? d)

/-- The character of a one-letter escape. -/
def letterEscape? (c : Char) : Option Char :=
  match c with
  | '"' => some '"'
  | '\\' => some '\\'
  | '/' => some '/'
  | 'b' => some '\x08'
  | 'f' => some '\x0c'
  | 'n' => some '\n'
  | 'r' => some '\r'
  | 't' => some '\t'
  | _ => none

/-- What four bytes that are no hexadecimal digits, or fewer than four, are faulted for. -/
def hexFault (cs : List Char) : Fault :=
  if byteCount cs < 4 then .before .endInString [] else ⟨.badEscape, byteCount cs - 4⟩

/-- The fault of a high surrogate that no second escape follows. -/
def pairFault : List Char → Fault
  | [] => .before .endInString []
  | '\\' :: [] => .before .endInString []
  | '\\' :: 'u' :: cs => hexFault cs
  | '\\' :: cs => .onto .brokenSurrogatePair cs
  | cs => .onto .brokenSurrogatePair cs

def pairChar (high low : Nat) : Char := .ofNat ((high - 0xD800) * 0x400 + (low - 0xDC00) + 0x10000)

/-- The characters up to the closing quote, and what follows it. -/
def readQuoted : List Char → Except Fault (List Char × List Char)
  | [] => .error (.before .endInString [])
  | '"' :: cs => .ok ([], cs)
  | '\\' :: cs =>
    match cs with
    | [] => .error (.before .endInString [])
    | 'u' :: cs =>
      match cs with
      | a :: b :: c :: d :: rest =>
        match hexUnit? a b c d with
        | none => .error (hexFault cs)
        | some unit =>
          if unit < 0xD800 ∨ 0xDFFF < unit then do
            let (found, rest) ← readQuoted rest
            return (.ofNat unit :: found, rest)
          else if 0xDC00 ≤ unit then .error (.before .loneSurrogate rest)
          else
            match rest with
            | '\\' :: 'u' :: e :: f :: g :: h :: tail =>
              match hexUnit? e f g h with
              | none => .error (hexFault (e :: f :: g :: h :: tail))
              | some low =>
                if low < 0xDC00 ∨ 0xDFFF < low then .error (.before .loneSurrogate tail)
                else do
                  let (found, rest) ← readQuoted tail
                  return (pairChar unit low :: found, rest)
            | _ => .error (pairFault rest)
      | _ => .error (hexFault cs)
    | e :: rest =>
      match letterEscape? e with
      | none => .error (.onto .badEscape cs)
      | some c => do
        let (found, rest) ← readQuoted rest
        return (c :: found, rest)
  | c :: cs =>
    if c < ' ' then .error (.onto .controlCharacter (c :: cs))
    else do
      let (found, rest) ← readQuoted cs
      return (c :: found, rest)

end AccessRules.Json
