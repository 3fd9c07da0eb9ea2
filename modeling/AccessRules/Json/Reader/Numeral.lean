import AccessRules.Json.Basic
import AccessRules.Json.Fault

/-! Reading JSON numbers.

A numeral is first scanned as text and then given its value. The value is exact for integers of up
to 64 bits. Any other numeral keeps the leading digits that fit 64 bits, and the double nearest to
these is multiplied or divided by a double power of ten, so it is rounded more than once. -/
namespace AccessRules.Json

/-- The parts of a numeral, each part a list of decimal digits. The exponent's sign is true for
minus. -/
structure Numeral where
  negative : Bool
  whole : List Char
  fraction : Option (List Char)
  exponent : Option (Bool × List Char)
deriving DecidableEq

namespace Numeral

def digitValue (c : Char) : Nat := c.toNat - '0'.toNat

/-- Digits are kept while their number is below `2 ^ 64`. -/
def wordBound : Nat := 18446744073709551616

/-- Exponents are told apart while they are below `2 ^ 31`. -/
def exponentBound : Nat := 2147483648

/-- Appends digits while the number stays below the bound; also counts the digits left out. -/
def absorb (bound : Nat) : Nat → List Char → Nat × Nat
  | n, [] => (n, 0)
  | n, d :: ds =>
    if n * 10 + digitValue d < bound then absorb bound (n * 10 + digitValue d) ds
    else (n, ds.length + 1)

theorem absorb_lt {bound n : Nat} (ds : List Char) (h : n < bound) :
    (absorb bound n ds).1 < bound := by
  induction ds generalizing n with
  | nil => exact h
  | cons d ds ih =>
    rw [absorb]
    split
    · next hd => exact ih hd
    · exact h

/-- The largest power of ten among the doubles. -/
def maxPower : Nat := 308

def tenPower? (k : Nat) : Option Magnitude := Magnitude.ofNat? (Nat.pow 10 k)

/-- Divides by the largest power of ten the given number of times. -/
def lower? : Nat → Magnitude → Option Magnitude
  | 0, m => some m
  | n + 1, m => do
    if m.quanta = 0 then return m
    lower? n (← m.div? (← tenPower? maxPower))

/-- Multiplies by a power of ten; `none` on overflow. -/
def scale? (m : Magnitude) (e : Int) : Option Magnitude := do
  if e < 0 then
    let rounds := (e.natAbs - 1) / maxPower
    (← lower? rounds m).div? (← tenPower? (e.natAbs - rounds * maxPower))
  else if e ≤ maxPower then m.mul? (← tenPower? e.natAbs)
  else if m.quanta = 0 then return m
  else none

/-- The digits that fit 64 bits and the power of ten that belongs to them. -/
def significand (n : Numeral) : Nat × Int :=
  let whole := absorb wordBound 0 n.whole
  let fraction := n.fraction.getD []
  let all := absorb wordBound whole.1 fraction
  (all.1, whole.2 - (fraction.length - all.2 : Nat))

/-- The integer that a plain sequence of digits stands for, if 64 bits hold it; minus zero is none. -/
def integer? (n : Numeral) : Option Number :=
  let value := (absorb wordBound 0 n.whole).1
  have bound : value < wordBound := absorb_lt n.whole (by decide)
  if n.fraction = none ∧ n.exponent = none ∧ (absorb wordBound 0 n.whole).2 = 0 then
    if n.negative then
      if h : 0 < value ∧ value ≤ 9223372036854775808 then some (.integer (-value) (by omega))
      else none
    else some (.integer value (by unfold wordBound at bound; omega))
  else none

/-- The double a numeral stands for. An overflow is reported with the number of digits after the
place where it is noticed: in the exponent's own digits, or else at the end of the numeral. -/
def double (n : Numeral) : Except Nat Double.Finite :=
  let (digits, power) := n.significand
  let (negative, exponent) := n.exponent.getD (false, [])
  let (shift, omitted) := absorb exponentBound 0 exponent
  if omitted ≠ 0 then
    if digits ≠ 0 ∧ negative = false then .error (omitted - 1)
    else .ok ⟨n.negative, .zero⟩
  else
    let e := if negative then power - shift else power + shift
    match Magnitude.ofNat? digits >>= (scale? · e) with
    | some m => .ok ⟨n.negative, m⟩
    | none => .error 0

/-- The number a numeral stands for: an integer wherever it can be. -/
def value (n : Numeral) : Except Nat Number :=
  match n.integer? with
  | some integer => .ok integer
  | none => (n.double).map .double

end Numeral

def spanDigits (cs : List Char) : List Char × List Char :=
  (cs.takeWhile Char.isDigit, cs.dropWhile Char.isDigit)

/-- At least one digit. -/
def readDigits (cs : List Char) : Except Fault (List Char × List Char) :=
  match cs with
  | [] => .error (.before .endInValue [])
  | c :: _ => if c.isDigit then .ok (spanDigits cs) else .error (.onto .badNumber cs)

/-- At least one digit, and no zero before another. -/
def readWhole (cs : List Char) : Except Fault (List Char × List Char) :=
  match readDigits cs with
  | .ok ('0' :: d :: ds, rest) => .error (.onto .badNumber (d :: ds ++ rest))
  | found => found

def readMinus : List Char → Bool × List Char
  | '-' :: cs => (true, cs)
  | cs => (false, cs)

/-- An optional sign, true for minus. -/
def readSign : List Char → Bool × List Char
  | '+' :: cs => (false, cs)
  | cs => readMinus cs

def readFraction : List Char → Except Fault (Option (List Char) × List Char)
  | '.' :: cs => do
    let (digits, rest) ← readDigits cs
    return (some digits, rest)
  | cs => .ok (none, cs)

def readExponent (cs : List Char) : Except Fault (Option (Bool × List Char) × List Char) :=
  match cs with
  | [] => .ok (none, [])
  | c :: rest =>
    if c = 'e' ∨ c = 'E' then do
      let (negative, rest) := readSign rest
      let (digits, rest) ← readDigits rest
      return (some (negative, digits), rest)
    else .ok (none, cs)

def readNumeral (cs : List Char) : Except Fault (Numeral × List Char) := do
  let (negative, cs) := readMinus cs
  let (whole, cs) ← readWhole cs
  let (fraction, cs) ← readFraction cs
  let (exponent, cs) ← readExponent cs
  return (⟨negative, whole, fraction, exponent⟩, cs)

def readNumber (cs : List Char) : Except Fault (Number × List Char) := do
  let (numeral, rest) ← readNumeral cs
  match numeral.value with
  | .ok n => return (n, rest)
  | .error after => throw ⟨.outOfRange, byteCount rest + after⟩

end AccessRules.Json
