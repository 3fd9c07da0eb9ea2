import AccessRules.Decimal.Layout
import AccessRules.Json.Basic

/-! Compact JSON text. -/
namespace AccessRules.Json

/-- Positional between `10 ^ (-5)` and `10 ^ 16`, scientific elsewhere; midway cases go to even. -/
def doubleChars (x : Double.Finite) : List Char :=
  let d := Decimal.shortest .even x.magnitude
  let text :=
    if -5 ≤ d.leadingExponent ∧ d.leadingExponent ≤ 15 then d.pointed else d.scientific
  if x.negative then '-' :: text else text

def Number.chars : Number → List Char
  | .integer n _ =>
    if n < 0 then '-' :: Nat.toDigits 10 n.natAbs else Nat.toDigits 10 n.natAbs
  | .double x => doubleChars x

/-- A character inside quotes: only quotes, backslashes and control characters are escaped. -/
def escape (c : Char) : List Char :=
  if c = '"' then ['\\', '"']
  else if c = '\\' then ['\\', '\\']
  else if c = '\x08' then ['\\', 'b']
  else if c = '\x0c' then ['\\', 'f']
  else if c = '\n' then ['\\', 'n']
  else if c = '\r' then ['\\', 'r']
  else if c = '\t' then ['\\', 't']
  else if c < ' ' then
    ['\\', 'u', '0', '0', Nat.digitChar (c.toNat / 16), Nat.digitChar (c.toNat % 16)]
  else [c]

def quote (s : String) : List Char := '"' :: (s.toList.flatMap escape ++ ['"'])

mutual

def chars : Json → List Char
  | .null => ['n', 'u', 'l', 'l']
  | .bool true => ['t', 'r', 'u', 'e']
  | .bool false => ['f', 'a', 'l', 's', 'e']
  | .number n => n.chars
  | .string s => quote s
  | .array [] => ['[', ']']
  | .array (v :: vs) => '[' :: (chars v ++ (itemsChars vs ++ [']']))
  | .object [] => ['\x7b', '\x7d']
  | .object ((k, v) :: es) => '\x7b' :: (quote k ++ ':' :: (chars v ++ (entriesChars es ++ ['\x7d'])))

/-- The items after the first, each behind its comma. -/
def itemsChars : List Json → List Char
  | [] => []
  | v :: vs => ',' :: (chars v ++ itemsChars vs)

/-- The entries after the first, each behind its comma. -/
def entriesChars : List (String × Json) → List Char
  | [] => []
  | (k, v) :: es => ',' :: (quote k ++ ':' :: (chars v ++ entriesChars es))

end

/-- The text of a value, without blanks. -/
def text (v : Json) : String := String.ofList v.chars

end AccessRules.Json
