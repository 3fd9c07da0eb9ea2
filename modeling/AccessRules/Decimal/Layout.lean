import AccessRules.Decimal.Shortest

/-! Decimals as text: positional and scientific. -/
namespace AccessRules.Decimal

def places (d : Decimal) : Nat := (-d.exponent).toNat

def whole (d : Decimal) : List Char :=
  Nat.toDigits 10 (d.digits * Nat.pow 10 d.exponent.toNat / Nat.pow 10 d.places)

/-- The digits after the point, one for each place. -/
def fraction (d : Decimal) : List Char :=
  if d.places = 0 then []
  else (Nat.toDigits 10 (d.digits % Nat.pow 10 d.places)).leftpad d.places '0'

/-- Positional text, with a point only before a fraction. -/
def plain (d : Decimal) : List Char :=
  if d.places = 0 then d.whole else d.whole ++ '.' :: d.fraction

/-- Positional text with at least one place. -/
def pointed (d : Decimal) : List Char :=
  if d.places = 0 then d.whole ++ ['.', '0'] else d.whole ++ '.' :: d.fraction

/-- The power of ten of the leading digit. -/
def leadingExponent (d : Decimal) : Int := (Nat.toDigits 10 d.digits).length - 1 + d.exponent

/-- A point after the leading digit if more follow, then an exponent that always has its sign. -/
def scientific (d : Decimal) : List Char :=
  let significand :=
    match Nat.toDigits 10 d.digits with
    | lead :: next :: rest => lead :: '.' :: next :: rest
    | digits => digits
  let e := d.leadingExponent
  significand ++ 'e' :: (if e < 0 then '-' else '+') :: Nat.toDigits 10 e.natAbs

end AccessRules.Decimal
